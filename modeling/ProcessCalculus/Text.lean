/-!
Places in a text. Offsets and spans count bytes of the text's encoding; positions count lines, and
characters within a line.
-/
namespace ProcessCalculus

/-- The bytes from `start` up to but excluding `stop`. -/
structure Span where
  start : Nat
  stop : Nat
deriving DecidableEq

namespace Text

/-- The number of bytes that encode the characters. -/
def byteLength : List Char → Nat
  | [] => 0
  | c :: cs => c.utf8Size + byteLength cs

/-- The characters that lie wholly within the first `bytes` bytes. -/
def takeBytes (bytes : Nat) : List Char → List Char
  | [] => []
  | c :: cs => if c.utf8Size ≤ bytes then c :: takeBytes (bytes - c.utf8Size) cs else []

@[simp] theorem byteLength_nil : byteLength [] = 0 := rfl

@[simp] theorem byteLength_cons (c : Char) (cs : List Char) :
    byteLength (c :: cs) = c.utf8Size + byteLength cs := rfl

@[simp] theorem byteLength_append (cs ds : List Char) :
    byteLength (cs ++ ds) = byteLength cs + byteLength ds := by
  induction cs with
  | nil => simp
  | cons c cs ih => simp [ih, Nat.add_assoc]

/-- Characters are cut off exactly where the cut falls between two of them. -/
theorem takeBytes_append (before after : List Char) :
    takeBytes (byteLength before) (before ++ after) = before := by
  induction before with
  | nil =>
    cases after with
    | nil => rfl
    | cons c cs =>
      have := c.utf8Size_pos
      rw [byteLength_nil, List.nil_append, takeBytes, if_neg (by omega)]
  | cons c cs ih => simp [takeBytes, ih]

end Text

/-- A line, counted from one, and the number of characters read on it. -/
structure Position where
  line : Nat
  column : Nat
deriving DecidableEq

namespace Position

/-- The position at the start of a text. -/
def start : Position := ⟨1, 0⟩

/-- The position after one more character. Only a newline starts a line. -/
def advance (p : Position) (c : Char) : Position :=
  if c = '\n' then ⟨p.line + 1, 0⟩ else ⟨p.line, p.column + 1⟩

/-- The position after reading the characters from the start. -/
def after (cs : List Char) : Position := cs.foldl advance start

/-- The position at a byte offset, or at the end of the text where the offset lies beyond it. An
offset inside a character counts as the offset where the character starts. -/
def ofOffset (text : String) (offset : Nat) : Position :=
  after (Text.takeBytes offset text.toList)

/-- The position at a byte offset, none where the offset lies inside a character. -/
def ofOffset? (text : String) (offset : Nat) : Option Position :=
  let before := Text.takeBytes offset text.toList
  if Text.byteLength before = min offset text.utf8ByteSize then some (after before) else none

def render (p : Position) : String := toString p.line ++ ":" ++ toString p.column

end Position
end ProcessCalculus
