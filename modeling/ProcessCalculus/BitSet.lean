/-!
Sets of indices below a fixed size, packed into machine words: index `i` is bit `i % 64` of word
`i / 64`. A cursor walks the members in increasing order, one word at a time.
-/
namespace ProcessCalculus

structure BitSet where
  size : Nat
  words : Array UInt64
deriving DecidableEq

namespace BitSet

/-- The set without members, for indices below `size`. -/
def empty (size : Nat) : BitSet := ⟨size, Array.replicate ((size + 63) / 64) 0⟩

/-- The word whose only bit stands for the index. -/
def mask (i : Nat) : UInt64 := 1 <<< (i % 64).toUInt64

/-- Whether the index is a member; an index beyond the size is none. -/
def contains (s : BitSet) (i : Nat) : Bool :=
  i < s.size && s.words.getD (i / 64) 0 &&& mask i != 0

/-- Makes the index a member; an index beyond the size changes nothing. -/
def insert (s : BitSet) (i : Nat) : BitSet :=
  if i < s.size then { s with words := s.words.modify (i / 64) (· ||| mask i) } else s

/-- Makes the index no member. -/
def erase (s : BitSet) (i : Nat) : BitSet :=
  if i < s.size then { s with words := s.words.modify (i / 64) (· &&& ~~~(mask i)) } else s

/-- Membership of an index that the set can hold. -/
def contains? (s : BitSet) (i : Nat) : Option Bool :=
  if i < s.size then some (s.contains i) else none

/-- Inserts an index that the set can hold. -/
def insert? (s : BitSet) (i : Nat) : Option BitSet :=
  if i < s.size then some (s.insert i) else none

/-- Erases an index that the set can hold. -/
def erase? (s : BitSet) (i : Nat) : Option BitSet :=
  if i < s.size then some (s.erase i) else none

/-- Whether there is a member. -/
def any (s : BitSet) : Bool := s.words.any (· != 0)

/-- The number of bits set in a word. -/
def bitCount (w : UInt64) : Nat := (List.range 64).countP w.toNat.testBit

/-- The number of members. -/
def count (s : BitSet) : Nat := s.words.toList.foldr (fun w n => bitCount w + n) 0

/-- The place of the lowest bit set in a word; 64 where there is none. -/
def lowestBit (w : UInt64) : Nat := ((List.range 64).find? w.toNat.testBit).getD 64

/-- A word without its lowest bit. -/
def dropLowest (w : UInt64) : UInt64 := w &&& (w - 1)

/-- The members still ahead: those in `word`, whose first bit stands for index `base`, and then
those in the words after it. -/
structure Cursor where
  base : Nat
  word : UInt64
  later : List UInt64

/-- A cursor before the first member. -/
def cursor (s : BitSet) : Cursor :=
  match s.words.toList with
  | [] => ⟨0, 0, []⟩
  | word :: later => ⟨0, word, later⟩

namespace Cursor

/-- The next member and the cursor past it, which skips words without one. At the end there is no
member, and the cursor stays there. -/
def next : Cursor → Option Nat × Cursor
  | ⟨base, word, later⟩ =>
    if word = 0 then
      match later with
      | [] => (none, ⟨base, word, []⟩)
      | first :: rest => next ⟨base + 64, first, rest⟩
    else (some (base + lowestBit word), ⟨base, dropLowest word, later⟩)
termination_by c => c.later.length

theorem dropLowest_lt {w : UInt64} (h : w ≠ 0) : (dropLowest w).toNat < w.toNat := by
  have positive : 0 < w.toNat := by
    apply Nat.pos_of_ne_zero
    intro zero
    exact h (UInt64.toNat_inj.mp zero)
  have below : (w - 1).toNat = w.toNat - 1 := by
    apply UInt64.toNat_sub_of_le
    exact UInt64.le_iff_toNat_le.mpr positive
  rw [dropLowest]
  rw [UInt64.toNat_and, below]
  exact Nat.lt_of_le_of_lt Nat.and_le_right (by omega)

/-- Past a member there are fewer words ahead, or as many and a smaller one first. -/
theorem next_shrinks {c d : Cursor} {i : Nat} (h : c.next = (some i, d)) :
    d.later.length < c.later.length ∨
      d.later.length = c.later.length ∧ d.word.toNat < c.word.toNat := by
  fun_induction next c with
  | case1 => simp at h
  | case2 base first rest ih =>
    left
    rcases ih h with shorter | ⟨same, _⟩ <;> simp only [List.length_cons] at * <;> omega
  | case3 base word later nonzero =>
    cases h
    exact .inr ⟨rfl, dropLowest_lt nonzero⟩

/-- The members ahead, in the order of the walk. -/
def toList (c : Cursor) : List Nat :=
  match _step : c.next with
  | (none, _) => []
  | (some i, rest) => i :: rest.toList
termination_by (c.later.length, c.word.toNat)
decreasing_by exact Prod.lex_def.mpr (next_shrinks _step)

end Cursor

/-- The members in increasing order. -/
def toList (s : BitSet) : List Nat := s.cursor.toList

@[simp] theorem size_insert (s : BitSet) (i : Nat) : (s.insert i).size = s.size := by
  rw [insert]
  split <;> rfl

@[simp] theorem size_erase (s : BitSet) (i : Nat) : (s.erase i).size = s.size := by
  rw [erase]
  split <;> rfl

end BitSet
end ProcessCalculus
