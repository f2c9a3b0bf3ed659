import ProcessCalculus.Text

/-!
Scanners read a text from its front and are put together from smaller ones. A scanner that refuses
has read nothing, so that another one can be tried in its place.
-/
namespace ProcessCalculus

/-- The characters that are left of a text, and the byte at which they start. -/
structure Cursor where
  offset : Nat
  rest : List Char

/-- Reads a value off the front of what is left, or refuses. -/
abbrev Scanner (α : Type) : Type := Cursor → Option (α × Cursor)

namespace Scanner

variable {α β : Type}

/-- One character that has a value. -/
def one (value? : Char → Option α) : Scanner α
  | ⟨_, []⟩ => none
  | ⟨offset, c :: rest⟩ => (value? c).map (·, ⟨offset + c.utf8Size, rest⟩)

/-- One character of a kind. -/
def satisfy (p : Char → Bool) : Scanner Char := one (Option.guard p)

/-- Just these characters. -/
def just (cs : List Char) : Scanner Unit := fun cursor =>
  if cs.isPrefixOf cursor.rest then
    some ((), ⟨cursor.offset + Text.byteLength cs, cursor.rest.drop cs.length⟩)
  else none

def map (f : α → β) (s : Scanner α) : Scanner β := fun cursor =>
  (s cursor).map fun read => (f read.1, read.2)

/-- One scanner behind the other, for the value of the first. -/
def thenIgnore (s : Scanner α) (t : Scanner β) : Scanner α := fun cursor =>
  (s cursor).bind fun first => (t first.2).map fun second => (first.1, second.2)

/-- One scanner behind the other, for the value of the second. -/
def ignoreThen (s : Scanner α) (t : Scanner β) : Scanner β := fun cursor =>
  (s cursor).bind fun first => t first.2

/-- The second scanner where the first one refuses. -/
def orElse (s t : Scanner α) : Scanner α := fun cursor => (s cursor).or (t cursor)

/-- As often as the scanner reads something. It never refuses. -/
def many (s : Scanner α) : Scanner (List α) := fun cursor =>
  match s cursor with
  | none => some ([], cursor)
  | some first =>
    if first.2.rest.length < cursor.rest.length then
      (many s first.2).map fun others => (first.1 :: others.1, others.2)
    else some ([], cursor)
termination_by cursor => cursor.rest.length

/-- As often as the scanner reads something, and at least once. -/
def many1 (s : Scanner α) : Scanner (List α) := fun cursor =>
  (many s cursor).filter fun read => !read.1.isEmpty

/-- A value with the bytes that it is read from. -/
def spanned (s : Scanner α) : Scanner (α × Span) := fun cursor =>
  (s cursor).map fun read => ((read.1, ⟨cursor.offset, read.2.offset⟩), read.2)

/-- What the scanner reads where it reads the whole text. -/
def run? (s : Scanner α) (text : String) : Option α :=
  (s ⟨0, text.toList⟩).bind fun read => if read.2.rest.isEmpty then some read.1 else none

/-- A scanner reads a piece of a text, with these characters behind it, for a value. -/
def Reads (s : Scanner α) (offset : Nat) (piece after : List Char) (a : α) : Prop :=
  s ⟨offset, piece ++ after⟩ = some (a, ⟨offset + Text.byteLength piece, after⟩)

section Reads

variable {s : Scanner α} {t : Scanner β} {offset : Nat} {piece more after : List Char} {a : α}

theorem Reads.map (reads : s.Reads offset piece after a) (f : α → β) :
    (s.map f).Reads offset piece after (f a) := by
  rw [Reads, Scanner.map, reads]
  rfl

theorem Reads.spanned (reads : s.Reads offset piece after a) :
    s.spanned.Reads offset piece after (a, ⟨offset, offset + Text.byteLength piece⟩) := by
  rw [Reads, Scanner.spanned, reads]
  rfl

theorem Reads.thenIgnore {b : β} (first : s.Reads offset piece (more ++ after) a)
    (second : t.Reads (offset + Text.byteLength piece) more after b) :
    (s.thenIgnore t).Reads offset (piece ++ more) after a := by
  rw [Reads, List.append_assoc, Scanner.thenIgnore, first, Option.bind_some, second,
    Text.byteLength_append, Nat.add_assoc]
  rfl

theorem Reads.ignoreThen {b : β} (first : s.Reads offset piece (more ++ after) a)
    (second : t.Reads (offset + Text.byteLength piece) more after b) :
    (s.ignoreThen t).Reads offset (piece ++ more) after b := by
  rw [Reads, List.append_assoc, Scanner.ignoreThen, first, Option.bind_some, second,
    Text.byteLength_append, Nat.add_assoc]

theorem Reads.orElse {u : Scanner α} (reads : s.Reads offset piece after a) :
    (s.orElse u).Reads offset piece after a := by
  rw [Reads, Scanner.orElse, reads, Option.some_or]

theorem Reads.orElse_of_refused {u : Scanner α} (refused : u ⟨offset, piece ++ after⟩ = none)
    (reads : s.Reads offset piece after a) : (u.orElse s).Reads offset piece after a := by
  rw [Reads, Scanner.orElse, refused, Option.none_or, reads]

theorem reads_many_nil (refused : s ⟨offset, after⟩ = none) : s.many.Reads offset [] after [] := by
  rw [Reads, List.nil_append, many, refused]
  rfl

theorem Reads.many_cons {as : List α} (reads : s.Reads offset piece (more ++ after) a)
    (nonempty : piece ≠ [])
    (rest : s.many.Reads (offset + Text.byteLength piece) more after as) :
    s.many.Reads offset (piece ++ more) after (a :: as) := by
  have shorter : (more ++ after).length < (piece ++ (more ++ after)).length := by
    have some := List.length_pos_iff.mpr nonempty
    simp only [List.length_append]
    omega
  rw [Reads, List.append_assoc, many, reads]
  simp only [if_pos shorter]
  rw [rest, Text.byteLength_append, Nat.add_assoc]
  rfl

theorem reads_one {value? : Char → Option α} {c : Char} (value : value? c = some a) :
    (one value?).Reads offset [c] after a := by
  rw [Reads, List.singleton_append, one, value]
  rfl

theorem one_refuses {value? : Char → Option α} {cs : List Char}
    (valueless : cs.head?.bind value? = none) : one value? ⟨offset, cs⟩ = none := by
  cases cs with
  | nil => rfl
  | cons c cs =>
    have unread : value? c = none := valueless
    rw [one, unread]
    rfl

theorem reads_just (cs : List Char) : (just cs).Reads offset cs after () := by
  have front : cs.isPrefixOf (cs ++ after) = true :=
    List.isPrefixOf_iff_prefix.mpr (List.prefix_append cs after)
  rw [Reads, just, if_pos front, List.drop_left]

theorem satisfy_refuses {p : Char → Bool} {cs : List Char} (stop : cs.head?.any p = false) :
    satisfy p ⟨offset, cs⟩ = none := by
  refine one_refuses ?_
  cases cs with
  | nil => rfl
  | cons c cs => exact Option.guard_eq_none_iff.mpr (by simpa using stop)

theorem reads_satisfy {p : Char → Bool} {c : Char} (holds : p c = true) :
    (satisfy p).Reads offset [c] after c :=
  reads_one (Option.guard_eq_some_iff.mpr ⟨rfl, holds⟩)

/-- Characters of a kind are read up to the first of another. -/
theorem reads_many_satisfy {p : Char → Bool} {run : List Char} (all : ∀ c ∈ run, p c = true)
    (stop : after.head?.any p = false) : (satisfy p).many.Reads offset run after run := by
  induction run generalizing offset with
  | nil => exact reads_many_nil (satisfy_refuses stop)
  | cons c cs ih =>
    obtain ⟨first, others⟩ := List.forall_mem_cons.mp all
    exact (reads_satisfy first).many_cons (List.cons_ne_nil c []) (ih others)

theorem Reads.many1 {as : List α} (reads : s.many.Reads offset piece after as)
    (nonempty : as ≠ []) : s.many1.Reads offset piece after as := by
  rw [Reads, Scanner.many1, reads, Option.filter_some, if_pos (by simpa using nonempty)]

theorem many1_refuses {cs : List Char} (refused : s ⟨offset, cs⟩ = none) :
    s.many1 ⟨offset, cs⟩ = none := by
  rw [Scanner.many1, many, refused]
  rfl

theorem Reads.run? {text : String} (reads : s.Reads 0 text.toList [] a) :
    s.run? text = some a := by
  rw [Reads, List.append_nil] at reads
  rw [Scanner.run?, reads]
  rfl

end Reads

end Scanner
end ProcessCalculus
