import ProcessCalculus.Grammar.Expected
import ProcessCalculus.Text

/-!
Syntax errors: what was found where a text breaks off, and what could have stood there.
-/
namespace ProcessCalculus

/-- A refused text. The position is that of the end of the token found, or of the text. -/
structure SyntaxError where
  found : Option Token
  expected : List Grammar.Pattern
  span : Span
  position : Position
deriving DecidableEq

namespace SyntaxError

/-- The labels of the expected patterns that a message names: the first four in order. -/
def shownExpected (e : SyntaxError) : List String :=
  ((e.expected.map Grammar.Pattern.label).mergeSort (· ≤ ·)).take 4

/-- The complaint, with the token found and the patterns expected in a verbose one. -/
def detail (e : SyntaxError) (verbose : Bool) : String :=
  if verbose then
    let found := match e.found with
      | some t => "'" ++ t.text ++ "'"
      | none => "end of input"
    "syntax error: unexpected " ++ found ++
      (if e.expected = [] then "" else ", expecting " ++ " or ".intercalate e.shownExpected)
  else "syntax error"

end SyntaxError

/-- What is told of a refused text: where it breaks off, and how. -/
structure Complaint where
  span : Span
  position : Position
  detail : String
deriving DecidableEq

def Complaint.message (c : Complaint) : String :=
  "Parse failed at " ++ c.position.render ++ ": " ++ c.detail

namespace SyntaxError

def complaint (e : SyntaxError) (verbose : Bool) : Complaint :=
  ⟨e.span, e.position, e.detail verbose⟩

def message (e : SyntaxError) (verbose : Bool) : String := (e.complaint verbose).message

end SyntaxError

end ProcessCalculus
