import ProcessCalculus.Text
import ProcessCalculus.Token.Basic

/-!
Scanning a text into tokens. Blanks and comments separate tokens, a word extends as far as it can,
and every other character is a token of its own, so scanning never fails.
-/
namespace ProcessCalculus

/-- A token with the bytes it was read from. -/
structure Located where
  token : Token
  span : Span
deriving DecidableEq

namespace Token

def isBlank (c : Char) : Bool := c ∈ [' ', '\t', '\r', '\n']

/-- Whether a comment starts here: two dashes, up to the end of the line. -/
def startsComment : List Char → Bool
  | '-' :: '-' :: _ => true
  | _ => false

/-- The tokens of the characters that start at byte `offset`. -/
def scan (offset : Nat) : List Char → List Located
  | [] => []
  | c :: rest =>
    if isBlank c then scan (offset + c.utf8Size) rest
    else if startsComment (c :: rest) then
      scan (offset + Text.byteLength (c :: rest.takeWhile (· ≠ '\n'))) (rest.dropWhile (· ≠ '\n'))
    else if isWordChar c then
      let word := c :: rest.takeWhile isWordChar
      let stop := offset + Text.byteLength word
      ⟨ofWord word, ⟨offset, stop⟩⟩ :: scan stop (rest.dropWhile isWordChar)
    else
      let stop := offset + c.utf8Size
      ⟨ofSymbol c, ⟨offset, stop⟩⟩ :: scan stop rest
termination_by cs => cs.length
decreasing_by
  · exact Nat.lt_succ_self _
  · exact Nat.lt_succ_of_le (List.dropWhile_sublist _).length_le
  · exact Nat.lt_succ_of_le (List.dropWhile_sublist _).length_le
  · exact Nat.lt_succ_self _

/-- The tokens of a text. -/
def scanText (text : String) : List Located := scan 0 text.toList

end Token
end ProcessCalculus
