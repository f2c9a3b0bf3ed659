import Mathlib.Data.List.Induction
import ProcessCalculus.Proofs.BitSet

/-!
Using a set, index by index, and walking it. The members after some uses are the indices that the
set can hold and of which the last change was an insertion; a use that fails changes nothing. A
cursor has the set bits of its words ahead: the next member is the first of them, the rest is ahead
of the cursor behind it, and at the end nothing is, however often it is asked.
-/
namespace ProcessCalculus.BitSet

/-! The bits of one word. -/

/-- Taking away one clears the lowest bit set and sets those below it, so what both have is the
number without that bit. -/
theorem testBit_and_pred {x t : Nat} (set : x.testBit t = true)
    (clear : ∀ j < t, x.testBit j = false) (i : Nat) :
    (x &&& (x - 1)).testBit i = (x.testBit i && decide (t < i)) := by
  have low : x % 2 ^ (t + 1) = 2 ^ t := by
    apply Nat.eq_of_testBit_eq
    intro j
    rw [Nat.testBit_mod_two_pow, Nat.testBit_two_pow]
    rcases Nat.lt_trichotomy j t with below | rfl | above
    · simp [clear j below, below.ne']
    · simp [set]
    · have beyond : ¬ j < t + 1 := by omega
      simp [beyond, above.ne]
  have whole : x = 2 ^ (t + 1) * (x / 2 ^ (t + 1)) + 2 ^ t := by
    rw [← low, Nat.div_add_mod]
  have positive : 0 < 2 ^ t := Nat.two_pow_pos t
  have smaller : 2 ^ t < 2 ^ (t + 1) := Nat.pow_lt_pow_right (by omega) (by omega)
  have less : x - 1 = 2 ^ (t + 1) * (x / 2 ^ (t + 1)) + (2 ^ t - 1) := by omega
  generalize x / 2 ^ (t + 1) = high at whole less
  rw [Nat.testBit_and, less, whole, Nat.testBit_two_pow_mul_add _ smaller,
    Nat.testBit_two_pow_mul_add _ (by omega), Nat.testBit_two_pow, Nat.testBit_two_pow_sub_one]
  by_cases within : i < t + 1
  · rw [if_pos within, if_pos within]
    have apart : ¬ (t = i ∧ i < t) := by omega
    have ahead : ¬ t < i := by omega
    simp only [ahead, decide_false, Bool.and_false, ← Bool.decide_and, apart]
  · rw [if_neg within, if_neg within, Bool.and_self, decide_eq_true (by omega), Bool.and_true]

theorem mem_places {w : UInt64} {j : Nat} : j ∈ places w ↔ w.toNat.testBit j = true := by
  rw [places, List.mem_filter, List.mem_range, and_iff_right_iff_imp]
  intro set
  by_contra beyond
  rw [Packed.testBit_word w (Nat.le_of_not_lt beyond)] at set
  contradiction

theorem places_zero : places 0 = [] := by simp [places]

/-- The lowest bit of a word comes first, and the others are those of the word without it. -/
theorem places_eq_cons {w : UInt64} (nonzero : w ≠ 0) :
    places w = lowestBit w :: places (dropLowest w) := by
  have positive : w.toNat ≠ 0 := fun zero => nonzero (UInt64.toNat_inj.mp zero)
  obtain ⟨j, set⟩ := Nat.exists_testBit_of_ne_zero positive
  obtain ⟨t, rest, split⟩ := List.exists_cons_of_ne_nil (List.ne_nil_of_mem (mem_places.mpr set))
  have lowest : lowestBit w = t := by
    rw [lowestBit, ← List.head?_filter, ← places, split]
    rfl
  have ordered : (places w).Pairwise (· < ·) := List.pairwise_lt_range.filter _
  rw [split, List.pairwise_cons] at ordered
  have clear : ∀ j < t, w.toNat.testBit j = false := by
    intro j below
    by_contra set
    have member := mem_places.mpr (Bool.eq_true_of_not_eq_false set)
    rw [split, List.mem_cons] at member
    rcases member with rfl | later
    · exact Nat.lt_irrefl _ below
    · exact Nat.lt_asymm below (ordered.1 j later)
  have present : w.toNat.testBit t = true := mem_places.mp (split ▸ List.mem_cons_self)
  have pred : (w - 1).toNat = w.toNat - 1 :=
    UInt64.toNat_sub_of_le _ _ (UInt64.le_iff_toNat_le.mpr (Nat.pos_of_ne_zero positive))
  have above : places (dropLowest w) = (places w).filter (t < ·) := by
    rw [places, places, List.filter_filter]
    apply List.filter_congr
    intro i _
    rw [dropLowest, UInt64.toNat_and, pred, testBit_and_pred present clear, Bool.and_comm]
  have others : rest.filter (t < ·) = rest :=
    List.filter_eq_self.mpr fun i member => decide_eq_true (ordered.1 i member)
  rw [above, lowest, split, List.filter_cons_of_neg (by simp), others]

/-! Walking a set. -/

namespace Cursor

/-- The members that a cursor still comes to. -/
def ahead (c : Cursor) : List Nat := (placesOf (c.word :: c.later)).map (c.base + ·)

theorem ahead_eq (base : Nat) (word : UInt64) (later : List UInt64) : ahead ⟨base, word, later⟩ =
    (places word).map (base + ·) ++ (placesOf later).map (base + 64 + ·) := by
  rw [ahead, placesOf_cons, List.map_append, List.map_map]
  simp only [Function.comp_def, Nat.add_assoc]

/-- The next member is the first one ahead, and the others are ahead of the cursor past it. At the
end there is none, and none is ahead of the cursor that is left. -/
theorem next_eq (c : Cursor) : c.next.1 = c.ahead.head? ∧ c.next.2.ahead = c.ahead.tail := by
  fun_induction next c with
  | case1 base =>
    rw [ahead_eq, places_zero]
    exact ⟨rfl, rfl⟩
  | case2 base first rest ih =>
    have skipped : ahead ⟨base, 0, first :: rest⟩ = ahead ⟨base + 64, first, rest⟩ := by
      rw [ahead_eq, places_zero]
      rfl
    rw [skipped]
    exact ih
  | case3 base word later nonzero =>
    have split : ahead ⟨base, word, later⟩ =
        (base + lowestBit word) :: ahead ⟨base, dropLowest word, later⟩ := by
      rw [ahead_eq, ahead_eq, places_eq_cons nonzero]
      rfl
    rw [split]
    exact ⟨rfl, rfl⟩

theorem toList_eq_ahead (c : Cursor) : c.toList = c.ahead := by
  fun_induction toList c with
  | case1 c rest ended =>
    have first := c.next_eq.1
    rw [ended] at first
    exact (List.head?_eq_none_iff.mp first.symm).symm
  | case2 c i rest step ih =>
    obtain ⟨first, others⟩ := c.next_eq
    rw [step] at first others
    rw [ih, others]
    obtain ⟨tail, split⟩ := List.head?_eq_some_iff.mp first.symm
    rw [split]
    rfl

/-- The cursor after a number of moves. -/
def moved (c : Cursor) : Nat → Cursor
  | 0 => c
  | k + 1 => (c.moved k).next.2

theorem ahead_moved (c : Cursor) (k : Nat) : (c.moved k).ahead = c.ahead.drop k := by
  induction k with
  | zero => rfl
  | succ k ih => rw [moved, (next_eq _).2, ih, List.tail_drop]

/-- Every move answers the member at its number, and none from the end on. -/
theorem next_moved (c : Cursor) (k : Nat) : (c.moved k).next.1 = c.ahead[k]? := by
  rw [(next_eq _).1, ahead_moved, List.head?_drop]

end Cursor

theorem ahead_cursor (s : BitSet) : s.cursor.ahead = placesOf s.words.toList := by
  rw [cursor]
  split
  · next none =>
    rw [none, Cursor.ahead_eq, places_zero]
    rfl
  · next word later split =>
    rw [split, Cursor.ahead]
    simp

/-! Using a set. -/

/-- One use of a set at an index: a change of its membership, or a question about it. -/
inductive Use
  | insert (i : Nat)
  | erase (i : Nat)
  | contains (i : Nat)
deriving DecidableEq

def Use.index : Use → Nat
  | .insert i => i
  | .erase i => i
  | .contains i => i

/-- The set after a use; there is none where the use fails. -/
def use? (s : BitSet) : Use → Option BitSet
  | .insert i => s.insert? i
  | .erase i => s.erase? i
  | .contains i => (s.contains? i).map fun _ => s

/-- The set after a use, which is the set itself where the use fails. -/
def use (s : BitSet) (u : Use) : BitSet := (s.use? u).getD s

/-- The set after some uses of the empty one. -/
def after (n : Nat) (uses : List Use) : BitSet := uses.foldl use (empty n)

/-- The last insertion or erasure of an index. -/
def lastChange (uses : List Use) (i : Nat) : Option Use :=
  (uses.filter fun u => u = .insert i ∨ u = .erase i).getLast?

/-- The indices below a bound of which the last change was an insertion. -/
def marked (n : Nat) (uses : List Use) : List Nat :=
  (List.range n).filter fun i => lastChange uses i = some (.insert i)

theorem mem_marked {n i : Nat} {uses : List Use} :
    i ∈ marked n uses ↔ i < n ∧ lastChange uses i = some (.insert i) := by
  rw [marked, List.mem_filter, List.mem_range, decide_eq_true_iff]

theorem lastChange_concat (uses : List Use) (u : Use) (i : Nat) : lastChange (uses ++ [u]) i =
    if u = .insert i ∨ u = .erase i then some u else lastChange uses i := by
  rw [lastChange, List.filter_append, List.filter_cons, List.filter_nil]
  by_cases changes : u = .insert i ∨ u = .erase i
  · rw [if_pos changes, if_pos (decide_eq_true changes), List.getLast?_concat]
  · rw [if_neg changes, if_neg (by simpa using changes), List.append_nil, lastChange]

theorem use?_eq_none_iff (s : BitSet) (u : Use) : s.use? u = none ↔ s.size ≤ u.index := by
  cases u <;> simp [use?, insert?, erase?, contains?, Use.index]

theorem use_insert (s : BitSet) (i : Nat) : s.use (.insert i) = s.insert i := by
  rw [use, use?, insert?]
  split
  · rfl
  · next beyond => rw [insert, if_neg beyond, Option.getD_none]

theorem use_erase (s : BitSet) (i : Nat) : s.use (.erase i) = s.erase i := by
  rw [use, use?, erase?]
  split
  · rfl
  · next beyond => rw [erase, if_neg beyond, Option.getD_none]

theorem use_contains (s : BitSet) (i : Nat) : s.use (.contains i) = s := by
  rw [use, use?]
  cases s.contains? i <;> rfl

/-- A set of some size that holds exactly the indices marked. -/
structure Holds (s : BitSet) (n : Nat) (uses : List Use) : Prop where
  packed : s.Packed
  size : s.size = n
  members : ∀ i, s.contains i = true ↔ i ∈ marked n uses

theorem Holds.use {s : BitSet} {n : Nat} {uses : List Use} (holds : s.Holds n uses) (u : Use) :
    (s.use u).Holds n (uses ++ [u]) := by
  obtain ⟨packed, size, members⟩ := holds
  simp only [mem_marked] at members
  cases u with
  | insert i =>
    rw [use_insert]
    refine ⟨packed.insert i, (size_insert s i).trans size, fun j => ?_⟩
    rw [packed.contains_insert, members, size, mem_marked, lastChange_concat]
    by_cases same : i = j
    · subst same
      simp +contextual
    · simp [same]
  | erase i =>
    rw [use_erase]
    refine ⟨packed.erase i, (size_erase s i).trans size, fun j => ?_⟩
    rw [packed.contains_erase, members, mem_marked, lastChange_concat]
    by_cases same : i = j
    · subst same
      simp
    · simp [same]
  | contains i =>
    rw [use_contains]
    refine ⟨packed, size, fun j => ?_⟩
    rw [members, mem_marked, lastChange_concat]
    simp

theorem holds_after (n : Nat) (uses : List Use) : (after n uses).Holds n uses := by
  induction uses using List.reverseRecOn with
  | nil =>
    refine ⟨packed_empty n, rfl, fun i => ?_⟩
    rw [after, List.foldl_nil, contains_empty, mem_marked]
    simp [lastChange]
  | append_singleton uses u ih =>
    rw [after, List.foldl_concat]
    exact ih.use u

/-- After any uses of an empty set, a use fails exactly at an index that the set cannot hold and
changes nothing there, and the set answers every question as the set of the indices marked does:
whether an index is a member, whether there is one, how many there are, and which they are, in
increasing order and none after the last. Sets of one size are equal where they have the same
members. -/
theorem after_exact (n : Nat) (uses : List Use) :
    (∀ u, (after n uses).use? u = none ↔ n ≤ u.index) ∧
    (∀ u, (after n uses).use? u = none → after n (uses ++ [u]) = after n uses) ∧
    (∀ i < n, (after n uses).contains? i =
      some (decide (lastChange uses i = some (.insert i)))) ∧
    (marked n uses).Pairwise (· < ·) ∧
    (∀ i, i ∈ marked n uses ↔ i < n ∧ lastChange uses i = some (.insert i)) ∧
    ((after n uses).any = true ↔ marked n uses ≠ []) ∧
    (after n uses).count = (marked n uses).length ∧
    (after n uses).toList = marked n uses ∧
    (∀ k, ((after n uses).cursor.moved k).next.1 = (marked n uses)[k]?) ∧
    ∀ others, after n others = after n uses ↔ ∀ i, i ∈ marked n others ↔ i ∈ marked n uses := by
  obtain ⟨packed, size, members⟩ := holds_after n uses
  have list : placesOf (after n uses).words.toList = marked n uses := by
    rw [packed.placesOf_words, size, marked]
    apply List.filter_congr
    intro i within
    rw [Bool.eq_iff_iff, members, mem_marked, decide_eq_true_iff]
    exact and_iff_right (List.mem_range.mp within)
  refine ⟨fun u => ?_, fun u fails => ?_, fun i within => ?_, List.pairwise_lt_range.filter _,
    fun i => mem_marked, ?_, ?_, ?_, fun k => ?_, fun others => ?_⟩
  · rw [use?_eq_none_iff, size]
  · rw [after, List.foldl_concat, ← after, use, fails, Option.getD_none]
  · rw [contains?, size, if_pos within, Option.some_inj, Bool.eq_iff_iff, members, mem_marked,
      decide_eq_true_iff]
    exact and_iff_right within
  · rw [packed.any_iff]
    simp only [members, ne_eq, List.eq_nil_iff_forall_not_mem, not_forall, not_not]
  · rw [count, count_words, list]
  · rw [toList, Cursor.toList_eq_ahead, ahead_cursor, list]
  · rw [Cursor.next_moved, ahead_cursor, list]
  · have other := holds_after n others
    constructor
    · intro same i
      rw [← other.members, ← members, same]
    · intro same
      apply other.packed.ext packed (other.size.trans size.symm)
      intro i
      rw [other.members, members, same]

/-- Uses around the ends of words, one of an index that the set cannot hold. -/
def straddling : List Use :=
  [.insert 0, .insert 64, .insert 63, .insert 129, .erase 64, .insert 130, .contains 63, .insert 63]

theorem after_exact_straddling :
    130 ≤ (Use.insert 130).index ∧ (after 130 straddling).use? (.insert 130) = none ∧
    after 130 (straddling ++ [.insert 130]) = after 130 straddling ∧
    (after 130 straddling).contains? 63 = some true ∧
    (after 130 straddling).contains? 64 = some false ∧
    (after 130 straddling).any = true ∧ (after 130 straddling).count = 3 ∧
    (after 130 straddling).toList = [0, 63, 129] ∧
    (∀ k, ((after 130 straddling).cursor.moved k).next.1 = [0, 63, 129][k]?) ∧
    ∀ others, after 130 others = after 130 straddling ↔
      ∀ i, i ∈ marked 130 others ↔ i ∈ [0, 63, 129] := by
  have members : marked 130 straddling = [0, 63, 129] := by decide
  obtain ⟨fails, unchanged, tells, -, -, any, count, list, walk, same⟩ := after_exact 130 straddling
  rw [members] at any count list walk same
  have beyond : (after 130 straddling).use? (.insert 130) = none := (fails _).mpr le_rfl
  exact ⟨le_rfl, beyond, unchanged _ beyond, tells 63 (by decide), tells 64 (by decide),
    any.mpr (List.cons_ne_nil _ _), count, list, walk, same⟩

end ProcessCalculus.BitSet
