import Mathlib.Data.Nat.Bitwise
import Mathlib.Data.List.Basic
import ProcessCalculus.BitSet

/-!
Membership in packed sets. The words of a set built from the empty one are exactly as many as its
size needs and have no bit beyond it, so inserting and erasing change membership at one index only,
and the population count of the words is the number of members.
-/
namespace ProcessCalculus.BitSet

theorem toNat_mask (i : Nat) : (mask i).toNat = 2 ^ (i % 64) := by
  have below : i % 64 < 64 := Nat.mod_lt i (by omega)
  have shift : (i % 64).toUInt64.toNat = i % 64 := by
    rw [Nat.toUInt64_eq, UInt64.toNat_ofNat', Nat.mod_eq_of_lt (by omega)]
  have small : 2 ^ (i % 64) < 2 ^ 64 := Nat.pow_lt_pow_right (by omega) below
  rw [mask, UInt64.toNat_shiftLeft, shift, Nat.mod_eq_of_lt below, Nat.shiftLeft_eq]
  simpa using Nat.mod_eq_of_lt small

theorem and_mask_ne_zero (w : UInt64) (i : Nat) :
    (w &&& mask i != 0) = w.toNat.testBit (i % 64) := by
  have value : (w &&& mask i).toNat = (w.toNat.testBit (i % 64)).toNat * 2 ^ (i % 64) := by
    rw [UInt64.toNat_and, toNat_mask, Nat.and_two_pow]
  rw [Bool.eq_iff_iff, bne_iff_ne, ne_eq, ← UInt64.toNat_inj, value]
  cases w.toNat.testBit (i % 64) <;> simp

theorem testBit_or_mask (w : UInt64) (i k : Nat) :
    (w ||| mask i).toNat.testBit k = (w.toNat.testBit k || decide (i % 64 = k)) := by
  rw [UInt64.toNat_or, Nat.testBit_or, toNat_mask, Nat.testBit_two_pow]

theorem testBit_and_not_mask (w : UInt64) (i : Nat) {k : Nat} (within : k < 64) :
    (w &&& ~~~(mask i)).toNat.testBit k = (w.toNat.testBit k && !decide (i % 64 = k)) := by
  have complement : (~~~(mask i)).toNat = 2 ^ 64 - ((mask i).toNat + 1) := by
    rw [UInt64.toNat_not]
    have := (mask i).toNat_lt
    simp only [UInt64.size]
    omega
  rw [UInt64.toNat_and, Nat.testBit_and, complement,
    Nat.testBit_two_pow_sub_succ (mask i).toNat_lt, toNat_mask, Nat.testBit_two_pow]
  simp [within]

/-- The bit that stands for an index, whether or not the set can hold it. -/
def bit (s : BitSet) (i : Nat) : Bool := (s.words.getD (i / 64) 0).toNat.testBit (i % 64)

theorem contains_eq (s : BitSet) (i : Nat) : s.contains i = (decide (i < s.size) && s.bit i) := by
  rw [contains, bit, and_mask_ne_zero]

theorem lt_size_of_contains {s : BitSet} {i : Nat} (member : s.contains i = true) :
    i < s.size := by
  rw [contains_eq, Bool.and_eq_true, decide_eq_true_eq] at member
  exact member.1

/-- There are as many words as the size needs, and no bit is set beyond it. -/
structure Packed (s : BitSet) : Prop where
  enough : s.words.size = (s.size + 63) / 64
  clear : ∀ i, s.size ≤ i → s.bit i = false

theorem bit_empty (n i : Nat) : (empty n).bit i = false := by
  have zero : (empty n).words.getD (i / 64) 0 = 0 := by
    rw [Array.getD_eq_getD_getElem?]
    simp only [empty, Array.getElem?_replicate]
    split <;> rfl
  rw [bit, zero]
  simp

theorem packed_empty (n : Nat) : (empty n).Packed :=
  ⟨by simp [empty], fun i _ => bit_empty n i⟩

theorem contains_empty (n i : Nat) : (empty n).contains i = false := by
  rw [contains_eq, bit_empty, Bool.and_false]

/-- A change of one word changes the bits of that word only. -/
theorem bit_modify (s : BitSet) (i : Nat) (change : UInt64 → UInt64) (j : Nat)
    (held : i / 64 < s.words.size) :
    ({ s with words := s.words.modify (i / 64) change } : BitSet).bit j =
      if i / 64 = j / 64 then (change (s.words.getD (j / 64) 0)).toNat.testBit (j % 64)
      else s.bit j := by
  rw [bit, bit]
  simp only [Array.getD_eq_getD_getElem?, Array.getElem?_modify]
  split
  · next same =>
    rw [← same, Array.getElem?_eq_getElem held]
    rfl
  · rfl

namespace Packed

variable {s : BitSet}

theorem word_held (packed : s.Packed) {i : Nat} (within : i < s.size) :
    i / 64 < s.words.size := by
  rw [packed.enough]
  omega

theorem bit_insert (packed : s.Packed) (i j : Nat) :
    (s.insert i).bit j = (s.bit j || decide (i < s.size ∧ i = j)) := by
  rw [BitSet.insert]
  split
  · next within =>
    rw [bit_modify s i _ j (packed.word_held within)]
    split
    · next same =>
      rw [testBit_or_mask, ← bit, decide_eq_decide.mpr]
      omega
    · next other =>
      have apart : ¬ (i < s.size ∧ i = j) := by omega
      rw [decide_eq_false apart, Bool.or_false]
  · next beyond =>
    have apart : ¬ (i < s.size ∧ i = j) := by omega
    rw [decide_eq_false apart, Bool.or_false]

theorem bit_erase (packed : s.Packed) (i j : Nat) :
    (s.erase i).bit j = (s.bit j && !decide (i < s.size ∧ i = j)) := by
  rw [BitSet.erase]
  split
  · next within =>
    rw [bit_modify s i _ j (packed.word_held within)]
    split
    · next same =>
      rw [testBit_and_not_mask _ _ (Nat.mod_lt j (by omega)), ← bit]
      congr 2
      rw [decide_eq_decide]
      omega
    · next other =>
      have apart : ¬ (i < s.size ∧ i = j) := by omega
      rw [decide_eq_false apart, Bool.not_false, Bool.and_true]
  · next beyond =>
    have apart : ¬ (i < s.size ∧ i = j) := by omega
    rw [decide_eq_false apart, Bool.not_false, Bool.and_true]

theorem insert (packed : s.Packed) (i : Nat) : (s.insert i).Packed := by
  constructor
  · rw [BitSet.insert]
    split
    · simpa using packed.enough
    · exact packed.enough
  · intro j beyond
    rw [size_insert] at beyond
    rw [packed.bit_insert, packed.clear j beyond, Bool.false_or, decide_eq_false_iff_not]
    omega

theorem erase (packed : s.Packed) (i : Nat) : (s.erase i).Packed := by
  constructor
  · rw [BitSet.erase]
    split
    · simpa using packed.enough
    · exact packed.enough
  · intro j beyond
    rw [size_erase] at beyond
    rw [packed.bit_erase, packed.clear j beyond, Bool.false_and]

theorem contains_insert (packed : s.Packed) (i j : Nat) :
    (s.insert i).contains j = true ↔ s.contains j = true ∨ i < s.size ∧ i = j := by
  rw [contains_eq, contains_eq, size_insert, packed.bit_insert]
  simp only [Bool.and_eq_true, Bool.or_eq_true, decide_eq_true_eq]
  constructor
  · rintro ⟨within, member | same⟩
    · exact .inl ⟨within, member⟩
    · exact .inr same
  · rintro (⟨within, member⟩ | ⟨within, rfl⟩)
    · exact ⟨within, .inl member⟩
    · exact ⟨within, .inr ⟨within, rfl⟩⟩

/-- Inserting the places of a list of pairs one after the other. -/
theorem foldl_insert {α : Type} (packed : s.Packed)
    (items : List (α × Nat)) : (items.foldl (fun s (_, i) => s.insert i) s).Packed ∧
      (items.foldl (fun s (_, i) => s.insert i) s).size = s.size ∧
      ∀ j, (items.foldl (fun s (_, i) => s.insert i) s).contains j = true ↔
        s.contains j = true ∨ j < s.size ∧ ∃ a, (a, j) ∈ items := by
  induction items generalizing s with
  | nil => exact ⟨packed, rfl, by simp⟩
  | cons item rest ih =>
    obtain ⟨a, i⟩ := item
    obtain ⟨later, size, contains⟩ := ih (packed.insert i)
    refine ⟨later, size.trans (size_insert s i), ?_⟩
    intro j
    rw [List.foldl_cons, contains, packed.contains_insert, size_insert, or_assoc]
    apply or_congr_right
    constructor
    · rintro (⟨within, rfl⟩ | ⟨within, b, member⟩)
      · exact ⟨within, a, List.mem_cons_self⟩
      · exact ⟨within, b, List.mem_cons_of_mem _ member⟩
    · rintro ⟨within, b, member⟩
      rcases List.mem_cons.mp member with same | member
      · exact .inl ⟨(Prod.mk.inj same).2 ▸ within, (Prod.mk.inj same).2.symm⟩
      · exact .inr ⟨within, b, member⟩

theorem contains_erase (packed : s.Packed) (i j : Nat) :
    (s.erase i).contains j = true ↔ s.contains j = true ∧ i ≠ j := by
  rw [contains_eq, contains_eq, size_erase, packed.bit_erase]
  simp only [Bool.and_eq_true, Bool.not_eq_true', decide_eq_true_eq, decide_eq_false_iff_not]
  constructor
  · rintro ⟨within, member, other⟩
    exact ⟨⟨within, member⟩, fun same => other ⟨same ▸ within, same⟩⟩
  · rintro ⟨⟨within, member⟩, other⟩
    exact ⟨within, member, fun same => other same.2⟩

end Packed

/-- The places of the bits set in a word. -/
def places (w : UInt64) : List Nat := (List.range 64).filter w.toNat.testBit

/-- The places of the bits set in consecutive words. -/
def placesOf (words : List UInt64) : List Nat :=
  (List.range (64 * words.length)).filter fun i =>
    (words.getD (i / 64) 0).toNat.testBit (i % 64)

theorem placesOf_cons (w : UInt64) (ws : List UInt64) :
    placesOf (w :: ws) = places w ++ (placesOf ws).map (64 + ·) := by
  have first : places w = (List.range 64).filter fun i =>
      ((w :: ws).getD (i / 64) 0).toNat.testBit (i % 64) := by
    apply List.filter_congr
    intro i member
    have below := List.mem_range.mp member
    rw [Nat.div_eq_of_lt below, Nat.mod_eq_of_lt below]
    rfl
  have others : ∀ i, ((w :: ws).getD ((64 + i) / 64) 0).toNat.testBit ((64 + i) % 64) =
      (ws.getD (i / 64) 0).toNat.testBit (i % 64) := by
    intro i
    rw [Nat.add_div_left i (by omega), Nat.add_mod_left]
    rfl
  have length : 64 * (w :: ws).length = 64 + 64 * ws.length := by
    rw [List.length_cons]
    omega
  rw [placesOf, length, List.range_add, List.filter_append, ← first, List.filter_map]
  simp only [Function.comp_def, others]
  rfl

/-- The population counts of consecutive words count the set bits of all of them. -/
theorem count_words (words : List UInt64) :
    words.foldr (fun w n => bitCount w + n) 0 = (placesOf words).length := by
  induction words with
  | nil => rfl
  | cons w ws ih =>
    rw [List.foldr_cons, ih, placesOf_cons, List.length_append, List.length_map, bitCount,
      List.countP_eq_length_filter, places]

namespace Packed

variable {s t : BitSet}

/-- The bits set are the members. -/
theorem placesOf_words (packed : s.Packed) :
    placesOf s.words.toList = (List.range s.size).filter s.contains := by
  have length : s.size ≤ 64 * s.words.toList.length := by
    rw [Array.length_toList, packed.enough]
    omega
  obtain ⟨spare, total⟩ := Nat.exists_eq_add_of_le length
  have bits : ∀ i, (s.words.toList.getD (i / 64) 0).toNat.testBit (i % 64) = s.bit i := by
    intro i
    simp [bit, Array.getD_eq_getD_getElem?, List.getD_eq_getElem?_getD]
  have beyond : (List.range spare).filter (fun i => s.bit (s.size + i)) = [] := by
    rw [List.filter_eq_nil_iff]
    intro i _
    rw [packed.clear _ (Nat.le_add_right _ _)]
    exact Bool.false_ne_true
  rw [placesOf, total, List.range_add, List.filter_append, List.filter_map]
  simp only [Function.comp_def, bits, beyond, List.map_nil, List.append_nil]
  apply List.filter_congr
  intro i member
  rw [contains_eq, decide_eq_true (List.mem_range.mp member), Bool.true_and]

theorem count_eq (packed : s.Packed) : s.count = (List.range s.size).countP s.contains := by
  rw [count, count_words, packed.placesOf_words, List.countP_eq_length_filter]

/-- A part of a set with no fewer members is the whole of it. -/
theorem contains_of_count_le (whole : s.Packed) (part : t.Packed) (size : t.size = s.size)
    (within : ∀ i, t.contains i = true → s.contains i = true) (many : s.count ≤ t.count)
    {i : Nat} (member : s.contains i = true) : t.contains i = true := by
  rw [whole.count_eq, part.count_eq, size, List.countP_eq_length_filter,
    List.countP_eq_length_filter] at many
  have sub : ((List.range s.size).filter t.contains).Sublist
        ((List.range s.size).filter s.contains) :=
    List.monotone_filter_right _ within
  have same := sub.eq_of_length_le many
  have present : i ∈ (List.range s.size).filter s.contains :=
    List.mem_filter.mpr ⟨List.mem_range.mpr (lt_size_of_contains member), member⟩
  rw [← same] at present
  exact (List.mem_filter.mp present).2

theorem bit_word {s : BitSet} {k j : Nat} (within : k < s.words.size) (below : j < 64) :
    s.bit (64 * k + j) = s.words[k].toNat.testBit j := by
  rw [bit, Nat.mul_add_div (by omega), Nat.div_eq_of_lt below, Nat.mul_add_mod,
    Nat.mod_eq_of_lt below, Nat.add_zero, Array.getD_eq_getD_getElem?,
    Array.getElem?_eq_getElem within, Option.getD_some]

theorem testBit_word (w : UInt64) {j : Nat} (beyond : 64 ≤ j) : w.toNat.testBit j = false :=
  Nat.testBit_lt_two_pow (w.toNat_lt.trans_le (Nat.pow_le_pow_right (by omega) beyond))

/-- Sets of one size with the same members are the same words. -/
theorem ext (first : s.Packed) (second : t.Packed) (size : s.size = t.size)
    (same : ∀ i, s.contains i = true ↔ t.contains i = true) : s = t := by
  have bits : ∀ i, s.bit i = t.bit i := by
    intro i
    by_cases within : i < s.size
    · have members := same i
      rw [contains_eq, contains_eq, ← size, decide_eq_true within, Bool.true_and,
        Bool.true_and] at members
      exact Bool.eq_iff_iff.mpr members
    · have beyond : s.size ≤ i := Nat.le_of_not_lt within
      rw [first.clear i beyond, second.clear i (size ▸ beyond)]
  have many : s.words.size = t.words.size := by rw [first.enough, second.enough, size]
  have words : s.words = t.words := by
    refine Array.ext many fun k inS inT => UInt64.toNat_inj.mp (Nat.eq_of_testBit_eq fun j => ?_)
    by_cases below : j < 64
    · rw [← bit_word inS below, ← bit_word inT below, bits]
    · rw [testBit_word _ (Nat.le_of_not_lt below), testBit_word _ (Nat.le_of_not_lt below)]
  cases s
  cases t
  cases size
  cases words
  rfl

/-- A word is not zero where it has a bit, and the bits of the words are members. -/
theorem any_iff (packed : s.Packed) : s.any = true ↔ ∃ i, s.contains i = true := by
  simp only [any, Array.any_eq_true', bne_iff_ne]
  constructor
  · rintro ⟨w, member, nonzero⟩
    obtain ⟨k, within, rfl⟩ := Array.getElem_of_mem member
    have positive : s.words[k].toNat ≠ 0 := fun zero => nonzero (UInt64.toNat_inj.mp zero)
    obtain ⟨j, set⟩ := Nat.exists_testBit_of_ne_zero positive
    have below : j < 64 := by
      by_contra beyond
      rw [testBit_word _ (Nat.le_of_not_lt beyond)] at set
      contradiction
    have bit : s.bit (64 * k + j) = true := (bit_word within below).trans set
    have inside : 64 * k + j < s.size := by
      by_contra beyond
      rw [packed.clear _ (Nat.le_of_not_lt beyond)] at bit
      contradiction
    exact ⟨_, by rw [contains_eq, decide_eq_true inside, bit, Bool.and_true]⟩
  · rintro ⟨i, member⟩
    have within : i / 64 < s.words.size := packed.word_held (lt_size_of_contains member)
    refine ⟨_, Array.getElem_mem within, fun zero => ?_⟩
    rw [contains, Array.getD_eq_getD_getElem?, Array.getElem?_eq_getElem within, Option.getD_some,
      zero] at member
    simp at member

end Packed
end ProcessCalculus.BitSet
