import Mathlib.Data.List.TakeWhile
import ProcessCalculus.Token.Scan

/-!
The tokens of texts that are put together. Only a word that runs across the seam, or a comment, can
change the tokens on either side; a text without dashes starts no comment.
-/
namespace ProcessCalculus

/-- The token as it stands some bytes further on. -/
def Located.shift (t : Located) (bytes : Nat) : Located :=
  ⟨t.token, ⟨t.span.start + bytes, t.span.stop + bytes⟩⟩

namespace Token

/-- Scanning finds the same tokens wherever the characters stand. -/
theorem scan_shift (offset bytes : Nat) (cs : List Char) :
    scan (offset + bytes) cs = (scan offset cs).map (·.shift bytes) := by
  fun_induction scan offset cs with
  | case1 => rw [scan, List.map_nil]
  | case2 offset c rest blank ih =>
    rw [scan, if_pos blank, Nat.add_right_comm]
    exact ih
  | case3 offset c rest blank comment ih =>
    rw [scan, if_neg blank, if_pos comment, Nat.add_right_comm]
    exact ih
  | case4 offset c rest blank comment wordChar word stop ih =>
    rw [scan, if_neg blank, if_neg comment, if_pos wordChar, List.map_cons, ← ih]
    simp only [Located.shift, Nat.add_right_comm offset bytes, word, stop]
  | case5 offset c rest blank comment wordChar stop ih =>
    rw [scan, if_neg blank, if_neg comment, if_neg wordChar, List.map_cons, ← ih]
    simp only [Located.shift, Nat.add_right_comm offset bytes, stop]

/-- The tokens of some characters, wherever they stand. -/
def spelled (cs : List Char) : List Token := (scan 0 cs).map Located.token

theorem map_token_scan (offset : Nat) (cs : List Char) :
    (scan offset cs).map Located.token = spelled cs := by
  rw [spelled, ← Nat.zero_add offset, scan_shift, List.map_map]
  rfl

theorem not_blank_of_wordChar {c : Char} (wordChar : isWordChar c = true) : ¬ isBlank c = true := by
  intro blank
  have blanks : c = ' ' ∨ c = '\t' ∨ c = '\r' ∨ c = '\n' := by simpa [isBlank] using blank
  rcases blanks with rfl | rfl | rfl | rfl <;> exact absurd wordChar (by decide)

theorem startsComment_cons {c : Char} (plain : c ≠ '-') (cs : List Char) :
    ¬ startsComment (c :: cs) = true := by
  intro comment
  unfold startsComment at comment
  split at comment
  · next same => exact plain (List.cons.inj same).1
  · contradiction

theorem spelled_nil : spelled [] = [] := by
  rw [spelled, scan, List.map_nil]

theorem spelled_blank {c : Char} (blank : isBlank c = true) (cs : List Char) :
    spelled (c :: cs) = spelled cs := by
  rw [spelled, scan, if_pos blank, map_token_scan]

theorem spelled_word {c : Char} (wordChar : isWordChar c = true) (cs : List Char) :
    spelled (c :: cs) =
      ofWord (c :: cs.takeWhile isWordChar) :: spelled (cs.dropWhile isWordChar) := by
  have plain : c ≠ '-' := by
    rintro rfl
    exact absurd wordChar (by decide)
  rw [spelled, scan, if_neg (not_blank_of_wordChar wordChar), if_neg (startsComment_cons plain cs),
    if_pos wordChar, List.map_cons, map_token_scan]

theorem spelled_symbol {c : Char} (blank : ¬ isBlank c = true) (plain : c ≠ '-')
    (wordChar : ¬ isWordChar c = true) (cs : List Char) :
    spelled (c :: cs) = ofSymbol c :: spelled cs := by
  rw [spelled, scan, if_neg blank, if_neg (startsComment_cons plain cs), if_neg wordChar,
    List.map_cons, map_token_scan]

def startsWord (cs : List Char) : Bool := cs.head?.any isWordChar

def endsWord (cs : List Char) : Bool := cs.getLast?.any isWordChar

theorem endsWord_append {a b : List Char} (nonempty : b ≠ []) :
    endsWord (a ++ b) = endsWord b := by
  rw [endsWord, List.getLast?_append, List.getLast?_eq_some_getLast nonempty, Option.some_or,
    endsWord, List.getLast?_eq_some_getLast nonempty]

theorem endsWord_of_cons {c : Char} {cs : List Char} (shut : endsWord (c :: cs) = false) :
    endsWord cs = false := by
  cases cs with
  | nil => rfl
  | cons d cs => rwa [← List.singleton_append, endsWord_append (List.cons_ne_nil d cs)] at shut

theorem endsWord_of_all {cs : List Char} (nonempty : cs ≠ [])
    (all : ∀ c ∈ cs, isWordChar c = true) : endsWord cs = true := by
  rw [endsWord, List.getLast?_eq_some_getLast nonempty]
  exact all _ (List.getLast_mem nonempty)

theorem takeWhile_eq_nil_of_startsWord {cs : List Char} (shut : startsWord cs = false) :
    cs.takeWhile isWordChar = [] ∧ cs.dropWhile isWordChar = cs := by
  cases cs with
  | nil => exact ⟨rfl, rfl⟩
  | cons c cs =>
    have outside : ¬ isWordChar c = true := by simpa [startsWord] using shut
    exact ⟨List.takeWhile_cons_of_neg outside, List.dropWhile_cons_of_neg outside⟩

/-- The tokens of two texts put together are the tokens of each. -/
theorem spelled_append {as bs : List Char} (plain : '-' ∉ as)
    (apart : endsWord as = false ∨ startsWord bs = false) :
    spelled (as ++ bs) = spelled as ++ spelled bs := by
  induction bound : as.length using Nat.strongRecOn generalizing as with
  | ind n ih =>
    cases as with
    | nil => rw [spelled_nil, List.nil_append, List.nil_append]
    | cons c cs =>
      rw [List.length_cons] at bound
      have later : '-' ∉ cs := fun member => plain (List.mem_cons_of_mem c member)
      have differs : c ≠ '-' := by
        rintro rfl
        exact plain List.mem_cons_self
      have rest : endsWord cs = false ∨ startsWord bs = false := apart.imp_left endsWord_of_cons
      rw [List.cons_append]
      by_cases blank : isBlank c = true
      · rw [spelled_blank blank, spelled_blank blank]
        exact ih cs.length (by omega) later rest rfl
      by_cases wordChar : isWordChar c = true
      · rw [spelled_word wordChar, spelled_word wordChar, List.takeWhile_append,
          List.dropWhile_append, List.cons_append]
        have parts : cs.takeWhile isWordChar ++ cs.dropWhile isWordChar = cs :=
          List.takeWhile_append_dropWhile
        by_cases whole : cs.dropWhile isWordChar = []
        · -- the word reaches the seam, so `bs` does not go on with it
          rw [whole, List.append_nil] at parts
          have open' : endsWord (c :: cs) = true := by
            refine endsWord_of_all (List.cons_ne_nil c cs) fun d member => ?_
            rcases List.mem_cons.mp member with rfl | member
            · exact wordChar
            · exact List.dropWhile_eq_nil_iff.mp whole d member
          have shut : startsWord bs = false := by
            rcases apart with closed | shut
            · rw [open'] at closed
              contradiction
            · exact shut
          obtain ⟨none, all⟩ := takeWhile_eq_nil_of_startsWord shut
          rw [parts, if_pos rfl, whole, List.isEmpty_nil, if_pos rfl, none, all, List.append_nil,
            spelled_nil]
          rfl
        · have shorter : (cs.takeWhile isWordChar).length ≠ cs.length := by
            intro same
            have lengths := congrArg List.length parts
            rw [List.length_append, same] at lengths
            exact whole (List.eq_nil_of_length_eq_zero (by omega))
          rw [if_neg shorter, if_neg (by simpa using whole)]
          congr 1
          refine ih (cs.dropWhile isWordChar).length ?_ ?_ ?_ rfl
          · have fewer := (List.dropWhile_sublist (p := isWordChar) (l := cs)).length_le
            omega
          · exact fun member => later ((List.dropWhile_sublist _).subset member)
          · have shut := endsWord_append (a := cs.takeWhile isWordChar) whole
            rw [parts] at shut
            rwa [← shut]
      · rw [spelled_symbol blank differs wordChar, spelled_symbol blank differs wordChar,
          List.cons_append]
        exact congrArg _ (ih cs.length (by omega) later rest rfl)

/-! Words. -/

/-- A text that spells an identifier. -/
structure IsWord (x : String) : Prop where
  nonempty : x.toList ≠ []
  chars : ∀ c ∈ x.toList, isWordChar c = true
  noKeyword : ∀ k : Keyword, x ≠ k.text
  noNumber : numeral? x.toList = none

theorem ofWord?_eq_none_iff {x : String} :
    Keyword.ofWord? x = none ↔ ∀ k : Keyword, x ≠ k.text := by
  rw [Option.eq_none_iff_forall_ne_some]
  exact forall_congr' fun k => not_congr Keyword.ofWord?_eq_some_iff

theorem isWord_iff {x : String} : IsWord x ↔ x.toList ≠ [] ∧
    x.toList.all isWordChar = true ∧ Keyword.ofWord? x = none ∧ numeral? x.toList = none := by
  rw [ofWord?_eq_none_iff, List.all_eq_true]
  constructor
  · rintro ⟨nonempty, chars, noKeyword, noNumber⟩
    exact ⟨nonempty, chars, noKeyword, noNumber⟩
  · rintro ⟨nonempty, chars, noKeyword, noNumber⟩
    exact ⟨nonempty, chars, noKeyword, noNumber⟩

instance (x : String) : Decidable (IsWord x) := decidable_of_iff' _ isWord_iff

theorem ofWord_of_isWord {x : String} (word : IsWord x) : ofWord x.toList = .identifier x := by
  have keyword : Keyword.ofWord? x = none := ofWord?_eq_none_iff.mpr word.noKeyword
  simp only [ofWord, String.ofList_toList, keyword, word.noNumber]

theorem isWord_of_ofWord {cs : List Char} {x : String} (nonempty : cs ≠ [])
    (chars : ∀ c ∈ cs, isWordChar c = true) (same : ofWord cs = .identifier x) : IsWord x := by
  rw [ofWord] at same
  split at same
  · contradiction
  · next keyword =>
    split at same
    · contradiction
    · next number =>
      cases same
      rw [← String.toList_ofList (l := cs)] at nonempty chars number
      exact ⟨nonempty, chars, ofWord?_eq_none_iff.mp keyword, number⟩

theorem spelled_of_all {cs : List Char} (nonempty : cs ≠ [])
    (all : ∀ c ∈ cs, isWordChar c = true) : spelled cs = [ofWord cs] := by
  cases cs with
  | nil => contradiction
  | cons c cs =>
    have later : ∀ d ∈ cs, isWordChar d = true := fun d member =>
      all d (List.mem_cons_of_mem c member)
    rw [spelled_word (all c List.mem_cons_self), List.takeWhile_eq_self_iff.mpr later,
      List.dropWhile_eq_nil_iff.mpr later, spelled_nil]

theorem chars_keyword (k : Keyword) :
    k.text.toList ≠ [] ∧ ∀ c ∈ k.text.toList, isWordChar c = true := by
  have word : k.text.toList ≠ [] ∧ k.text.toList.all isWordChar = true := by
    cases k <;> decide
  exact ⟨word.1, List.all_eq_true.mp word.2⟩

theorem spelled_keyword (k : Keyword) : spelled k.text.toList = [.keyword k] := by
  rw [spelled_of_all (chars_keyword k).1 (chars_keyword k).2, ofWord, String.ofList_toList,
    Keyword.ofWord?_text]

/-! Numerals. -/

theorem isWordChar_of_isDigit {c : Char} (digit : c.isDigit = true) : isWordChar c = true := by
  simp [isWordChar, Char.isAlphanum, digit]

/-- No keyword begins with a digit. -/
theorem not_digits_keyword (k : Keyword) : ¬ ∀ c ∈ k.text.toList, c.isDigit = true := by
  rw [← List.all_eq_true]
  cases k <;> decide

theorem numeral?_toDigits {n : Nat} (small : n ≤ 9223372036854775807) :
    numeral? (Nat.toDigits 10 n) = some (Int64.ofNat n) := by
  have digits : (Nat.toDigits 10 n).all Char.isDigit = true := List.all_eq_true.mpr fun c member =>
    Nat.isDigit_of_mem_toDigits (by omega) (by omega) member
  have value : Nat.ofDigitChars 10 (Nat.toDigits 10 n) 0 = n := Nat.ofDigitChars_ten_toDigits
  rw [numeral?, value, if_pos ⟨Nat.toDigits_ne_nil, digits, small⟩]

theorem numeral?_nonneg {cs : List Char} {n : Int64} (read : numeral? cs = some n) :
    0 ≤ n.toInt := by
  simp only [numeral?, Option.ite_none_right_eq_some, Option.some.injEq] at read
  obtain ⟨⟨-, -, small⟩, rfl⟩ := read
  rw [Int64.toInt_ofNat_of_lt (by omega)]
  omega

theorem spelled_number {n : Int64} (nonneg : 0 ≤ n.toInt) :
    (∀ c ∈ (toString n.toInt).toList, isWordChar c = true) ∧
      spelled (toString n.toInt).toList = [.number n] := by
  obtain ⟨k, same⟩ := Int.eq_ofNat_of_zero_le nonneg
  have small : k ≤ 9223372036854775807 := by
    have bound := n.toInt_lt
    omega
  have text : (toString n.toInt).toList = Nat.toDigits 10 k := by
    rw [same]
    exact String.toList_ofList
  have digits : ∀ c ∈ Nat.toDigits 10 k, c.isDigit = true := fun c member =>
    Nat.isDigit_of_mem_toDigits (by omega) (by omega) member
  have keyword : Keyword.ofWord? (String.ofList (Nat.toDigits 10 k)) = none := by
    refine ofWord?_eq_none_iff.mpr fun word same => not_digits_keyword word ?_
    rwa [← same, String.toList_ofList]
  have value : Int64.ofNat k = n := by
    rw [← Int64.ofInt_eq_ofNat, ← Int64.ofInt_toInt n, same]
  have chars : ∀ c ∈ Nat.toDigits 10 k, isWordChar c = true := fun c member =>
    isWordChar_of_isDigit (digits c member)
  rw [text]
  refine ⟨chars, ?_⟩
  rw [spelled_of_all Nat.toDigits_ne_nil chars, ofWord, keyword]
  simp only [numeral?_toDigits small, value]

/-! What scanning finds: identifiers are words and numbers have no sign. -/

def Formed : Token → Prop
  | .identifier x => IsWord x
  | .number n => 0 ≤ n.toInt
  | _ => True

theorem formed_ofWord {cs : List Char} (nonempty : cs ≠ [])
    (chars : ∀ c ∈ cs, isWordChar c = true) : (ofWord cs).Formed := by
  cases made : ofWord cs with
  | identifier x => exact isWord_of_ofWord nonempty chars made
  | number n =>
    rw [ofWord] at made
    split at made
    · contradiction
    · split at made
      · next number =>
        cases made
        exact numeral?_nonneg number
      · contradiction
  | _ => trivial

theorem token_of_scan (offset : Nat) (cs : List Char) : ∀ t ∈ scan offset cs,
    (∃ word ≠ [], (∀ c ∈ word, isWordChar c = true) ∧ t.token = ofWord word) ∨
      ∃ c, t.token = ofSymbol c := by
  fun_induction scan offset cs with
  | case1 => simp
  | case2 offset c rest blank ih => exact ih
  | case3 offset c rest blank comment ih => exact ih
  | case4 offset c rest blank comment wordChar word stop ih =>
    intro t member
    rcases List.mem_cons.mp member with rfl | member
    · refine .inl ⟨word, List.cons_ne_nil _ _, fun d inside => ?_, rfl⟩
      rcases List.mem_cons.mp inside with rfl | inside
      · exact wordChar
      · exact List.mem_takeWhile_imp inside
    · exact ih t member
  | case5 offset c rest blank comment wordChar stop ih =>
    intro t member
    rcases List.mem_cons.mp member with rfl | member
    · exact .inr ⟨c, rfl⟩
    · exact ih t member

theorem token_of_scanText {text : String} {t : Token}
    (member : t ∈ (scanText text).map Located.token) :
    (∃ word ≠ [], (∀ c ∈ word, isWordChar c = true) ∧ t = ofWord word) ∨ ∃ c, t = ofSymbol c := by
  obtain ⟨l, inside, rfl⟩ := List.mem_map.mp member
  exact token_of_scan 0 text.toList l inside

theorem formed_tokens (text : String) : ∀ t ∈ (scanText text).map Located.token, t.Formed := by
  intro t member
  rcases token_of_scanText member with ⟨word, nonempty, chars, rfl⟩ | ⟨c, rfl⟩
  · exact formed_ofWord nonempty chars
  · cases found : Mark.ofChar? c <;> simp [ofSymbol, found, Formed]

/-- An illegal character of a text is no mark. -/
theorem ofChar?_of_illegal {text : String} {c : Char}
    (member : .illegal c ∈ (scanText text).map Located.token) : Mark.ofChar? c = none := by
  rcases token_of_scanText member with ⟨word, -, -, same⟩ | ⟨d, same⟩
  · rw [ofWord] at same
    split at same
    · contradiction
    · split at same <;> contradiction
  · rw [ofSymbol] at same
    split at same
    · contradiction
    · next unknown =>
      cases same
      exact unknown

end Token
end ProcessCalculus
