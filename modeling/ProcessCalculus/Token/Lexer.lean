import ProcessCalculus.Scanner
import ProcessCalculus.Token.Scan

/-!
The lexer as a scanner of tokens. Blanks and comments are skipped before and behind each token, and
before and behind them all.
-/
namespace ProcessCalculus.Token

open Scanner (one satisfy just)

/-- Two dashes and what follows on their line. -/
def comment : Scanner Unit := (just ['-', '-']).thenIgnore (satisfy (· ≠ '\n')).many

def blank : Scanner Unit := (satisfy isBlank).map fun _ => ()

/-- Comments and blanks, which may be missing. -/
def trivia : Scanner Unit := (comment.orElse blank).many.map fun _ => ()

def padded {α : Type} (s : Scanner α) : Scanner α := (trivia.ignoreThen s).thenIgnore trivia

def word : Scanner Token := (satisfy isWordChar).many1.map ofWord

def symbol : Scanner Token :=
  (one fun c => (Mark.ofChar? c).map Token.mark).orElse (one fun c => some (.illegal c))

/-- One token, with nothing skipped around it. -/
def lexeme : Scanner Token := word.orElse symbol

def item : Scanner Located := padded (lexeme.spanned.map fun read => ⟨read.1, read.2⟩)

def lexer : Scanner (List Located) := padded item.many

/-- The tokens of a text, none where the lexer refuses or stops before the end. -/
def lex? (text : String) : Option (List Located) := lexer.run? text

end ProcessCalculus.Token
