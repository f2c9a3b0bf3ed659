import ProcessCalculus.Text

/-!
Positions of many offsets of one text. The bytes at which lines start are noted once; an offset is
then looked up among them, and only its own line is read.
-/
namespace ProcessCalculus

/-- The characters of the bytes from `start` up to but excluding `stop`, none where one of these
lies inside a character or beyond the end. -/
def Text.slice? (start stop : Nat) (cs : List Char) : Option (List Char) :=
  let before := takeBytes start cs
  let through := takeBytes stop cs
  if start ≤ stop ∧ byteLength before = start ∧ byteLength through = stop then
    some (through.drop before.length)
  else none

/-- A text and the bytes at which its lines start. -/
structure LineIndex where
  text : String
  starts : Array Nat

namespace LineIndex

/-- The bytes behind the newlines of the characters that start at byte `offset`. -/
def newlineEnds (offset : Nat) : List Char → List Nat
  | [] => []
  | c :: cs =>
    let stop := offset + c.utf8Size
    if c = '\n' then stop :: newlineEnds stop cs else newlineEnds stop cs

def ofText (text : String) : LineIndex := ⟨text, (0 :: newlineEnds 0 text.toList).toArray⟩

/-- How many of the starts are no larger than the offset, by halving the range where the others
begin. -/
def search (starts : Array Nat) (offset low high : Nat) : Nat :=
  if h : low < high ∧ high ≤ starts.size then
    let middle := (low + high) / 2
    if starts[middle] ≤ offset then search starts offset (middle + 1) high
    else search starts offset low middle
  else low
termination_by high - low

/-- The position at a byte offset, or at the end of the text where the offset lies beyond it; none
where the offset lies inside a character. -/
def position? (index : LineIndex) (offset : Nat) : Option Position :=
  let offset := min offset index.text.utf8ByteSize
  let line := search index.starts offset 0 index.starts.size
  (index.starts[line - 1]?).bind fun start =>
    (Text.slice? start offset index.text.toList).map fun before => ⟨line, before.length⟩

end LineIndex
end ProcessCalculus
