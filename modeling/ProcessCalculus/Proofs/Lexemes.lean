import ProcessCalculus.Proofs.Lexing
import ProcessCalculus.Token.Lexer

/-!
What the tokens of a text are, and what stands between them. The lexer reads exactly the lexemes and
skips exactly the blanks and comments, and so does scanning; hence they find the same tokens.
-/
namespace ProcessCalculus

namespace Token

/-! Words. -/

/-- A word reads as a number: its digits have a value that 64 bits with a sign can hold. -/
structure Numeral (word : List Char) (value : Int64) : Prop where
  nonempty : word ≠ []
  digits : ∀ c ∈ word, c.isDigit = true
  value_eq : (Nat.ofDigitChars 10 word 0 : Int) = value.toInt

/-- A keyword where the word spells one, else a number where it reads as one, else a name. -/
inductive WordLexeme (word : List Char) : Token → Prop where
  | keyword {k : Keyword} : word = k.text.toList → WordLexeme word (.keyword k)
  | number {n : Int64} : (∀ k : Keyword, word ≠ k.text.toList) → Numeral word n →
      WordLexeme word (.number n)
  | identifier : (∀ k : Keyword, word ≠ k.text.toList) → (∀ n, ¬ Numeral word n) →
      WordLexeme word (.identifier (String.ofList word))

theorem numeral?_eq_some_iff {word : List Char} {n : Int64} :
    numeral? word = some n ↔ Numeral word n := by
  rw [numeral?, Option.ite_none_right_eq_some, List.all_eq_true, Option.some.injEq]
  constructor
  · rintro ⟨⟨nonempty, digits, small⟩, rfl⟩
    exact ⟨nonempty, digits, (Int64.toInt_ofNat_of_lt (by omega)).symm⟩
  · rintro ⟨nonempty, digits, value⟩
    have bound := n.toInt_lt
    refine ⟨⟨nonempty, digits, by omega⟩, ?_⟩
    rw [← Int64.ofInt_eq_ofNat, value, Int64.ofInt_toInt]

theorem ofWord?_ofList_eq_none_iff {word : List Char} :
    Keyword.ofWord? (String.ofList word) = none ↔ ∀ k : Keyword, word ≠ k.text.toList := by
  rw [ofWord?_eq_none_iff]
  refine forall_congr' fun k => not_congr ?_
  rw [← String.toList_inj, String.toList_ofList]

theorem ofWord_eq_iff {word : List Char} {t : Token} : ofWord word = t ↔ WordLexeme word t := by
  constructor
  · rintro rfl
    rw [ofWord]
    split
    · next k found =>
      refine .keyword ?_
      rw [← Keyword.ofWord?_eq_some_iff.mp found, String.toList_ofList]
    · next unknown =>
      have noKeyword := ofWord?_ofList_eq_none_iff.mp unknown
      split
      · next n read => exact .number noKeyword (numeral?_eq_some_iff.mp read)
      · next unread =>
        refine .identifier noKeyword fun n numeral => ?_
        rw [numeral?_eq_some_iff.mpr numeral] at unread
        contradiction
  · rintro (same | ⟨noKeyword, numeral⟩ | ⟨noKeyword, noNumeral⟩)
    · rw [ofWord, same, String.ofList_toList, Keyword.ofWord?_text]
    · simp only [ofWord, ofWord?_ofList_eq_none_iff.mpr noKeyword, numeral?_eq_some_iff.mpr numeral]
    · have unread : numeral? word = none :=
        Option.eq_none_iff_forall_ne_some.mpr fun n read =>
          noNumeral n (numeral?_eq_some_iff.mp read)
      simp only [ofWord, ofWord?_ofList_eq_none_iff.mpr noKeyword, unread]

/-! Lexemes, and what stands between them. -/

/-- The token of a piece of a text, with the characters behind the piece. A word goes on as far as
it can, and a dash that is a token starts no comment. -/
inductive Lexeme : List Char → List Char → Token → Prop where
  | word {piece after : List Char} {t : Token} : piece ≠ [] →
      (∀ c ∈ piece, isWordChar c = true) → startsWord after = false → WordLexeme piece t →
      Lexeme piece after t
  | mark {after : List Char} (m : Mark) : Lexeme [m.char] after (.mark m)
  | illegal {c : Char} {after : List Char} : isWordChar c = false → isBlank c = false →
      (∀ m : Mark, c ≠ m.char) → (c = '-' → after.head? ≠ some '-') → Lexeme [c] after (.illegal c)

/-- Blanks and comments, with the characters behind them. A comment starts with two dashes and goes
on up to the next newline, or to the end of the text. -/
inductive Trivia : List Char → List Char → Prop where
  | nothing {after : List Char} : Trivia [] after
  | blank {c : Char} {gap after : List Char} : isBlank c = true → Trivia gap after →
      Trivia (c :: gap) after
  | comment {remark gap after : List Char} : '\n' ∉ remark →
      (∀ c ∈ (gap ++ after).head?, c = '\n') → Trivia gap after →
      Trivia ('-' :: '-' :: (remark ++ gap)) after

/-- Tokens of the characters that are left, piece by piece. -/
inductive Covers : Nat → List Char → List Located → Prop where
  | done {offset : Nat} {gap : List Char} : Trivia gap [] → Covers offset gap []
  | next {offset : Nat} {gap piece after : List Char} {t : Token} {ts : List Located} :
      Trivia gap (piece ++ after) → Lexeme piece after t →
      Covers (offset + Text.byteLength gap + Text.byteLength piece) after ts →
      Covers offset (gap ++ (piece ++ after))
        (⟨t, ⟨offset + Text.byteLength gap,
          offset + Text.byteLength gap + Text.byteLength piece⟩⟩ :: ts)

theorem Lexeme.piece_ne_nil {piece after : List Char} {t : Token} (lexeme : Lexeme piece after t) :
    piece ≠ [] := by
  cases lexeme with
  | word nonempty => exact nonempty
  | mark m => exact List.cons_ne_nil _ _
  | illegal => exact List.cons_ne_nil _ _

/-! What scanning reads and skips is of this kind. -/

theorem startsComment_iff {cs : List Char} :
    startsComment cs = true ↔ ∃ rest, cs = '-' :: '-' :: rest := by
  constructor
  · intro comment
    unfold startsComment at comment
    split at comment
    · next rest => exact ⟨rest, rfl⟩
    · contradiction
  · rintro ⟨rest, rfl⟩
    rfl

theorem head?_dropWhile_any {p : Char → Bool} (cs : List Char) :
    (cs.dropWhile p).head?.any p = false := by
  cases left : cs.dropWhile p with
  | nil => rfl
  | cons c rest =>
    have first := List.head?_dropWhile_not p cs
    rw [left] at first
    simpa using first

theorem Covers.skip {offset : Nat} (first : List Char) {rest : List Char} {ts : List Located}
    (opens : ∀ gap after, gap ++ after = rest → Trivia gap after → Trivia (first ++ gap) after)
    (covers : Covers (offset + Text.byteLength first) rest ts) :
    Covers offset (first ++ rest) ts := by
  cases covers with
  | done trivia => exact .done (opens _ [] (List.append_nil _) trivia)
  | @next _ gap piece after t ts trivia lexeme later =>
    have bytes : offset + Text.byteLength first + Text.byteLength gap =
        offset + Text.byteLength (first ++ gap) := by
      rw [Text.byteLength_append, Nat.add_assoc]
    rw [bytes] at later ⊢
    rw [← List.append_assoc]
    exact .next (opens _ _ rfl trivia) lexeme later

theorem lexeme_ofSymbol {c : Char} {after : List Char} (blank : ¬ isBlank c = true)
    (comment : ¬ startsComment (c :: after) = true) (wordChar : ¬ isWordChar c = true) :
    Lexeme [c] after (ofSymbol c) := by
  rw [ofSymbol]
  split
  · next m found =>
    rw [Mark.ofChar?_eq_some_iff.mp found]
    exact .mark m
  · next unknown =>
    refine .illegal (by simpa using wordChar) (by simpa using blank) ?_ ?_
    · rintro m rfl
      rw [Mark.ofChar?_char] at unknown
      contradiction
    · rintro rfl next
      obtain ⟨rest, rfl⟩ := List.head?_eq_some_iff.mp next
      exact comment rfl

theorem covers_scan (offset : Nat) (cs : List Char) : Covers offset cs (scan offset cs) := by
  fun_induction scan offset cs with
  | case1 offset => exact .done .nothing
  | case2 offset c rest blank ih =>
    exact .skip [c] (fun gap after _ trivia => .blank blank trivia) ih
  | case3 offset c rest blank comment ih =>
    obtain ⟨remark, same⟩ := startsComment_iff.mp comment
    obtain ⟨rfl, rfl⟩ := List.cons.inj same
    have line : '-' :: '-' :: remark = ('-' :: ('-' :: remark).takeWhile (· ≠ '\n')) ++
        ('-' :: remark).dropWhile (· ≠ '\n') := by
      rw [List.cons_append, List.takeWhile_append_dropWhile]
    have opens (gap after : List Char)
        (rest : gap ++ after = ('-' :: remark).dropWhile (· ≠ '\n')) (trivia : Trivia gap after) :
        Trivia ('-' :: '-' :: (remark.takeWhile (· ≠ '\n') ++ gap)) after := by
      refine .comment ?_ ?_ trivia
      · intro member
        exact absurd (List.mem_takeWhile_imp member) (by decide)
      · intro c first
        have stop := head?_dropWhile_any (p := (· ≠ '\n')) ('-' :: remark)
        rw [← rest] at stop
        simpa [Option.mem_def.mp first] using stop
    rw [line]
    exact .skip _ opens ih
  | case4 offset c rest blank comment wordChar word stop ih =>
    have line : c :: rest = [] ++ (word ++ rest.dropWhile isWordChar) := by
      rw [List.nil_append, List.cons_append, List.takeWhile_append_dropWhile]
    have lexeme : Lexeme word (rest.dropWhile isWordChar) (ofWord word) := by
      refine .word (List.cons_ne_nil _ _) ?_ (head?_dropWhile_any rest) (ofWord_eq_iff.mp rfl)
      intro d member
      rcases List.mem_cons.mp member with rfl | member
      · exact wordChar
      · exact List.mem_takeWhile_imp member
    rw [line]
    exact .next .nothing lexeme ih
  | case5 offset c rest blank comment wordChar stop ih =>
    have line : c :: rest = [] ++ ([c] ++ rest) := rfl
    rw [line]
    exact .next .nothing (lexeme_ofSymbol blank comment wordChar) ih

/-! The lexer reads and skips what is of this kind. -/

/-- No blank and no comment comes first. -/
structure Bare (cs : List Char) : Prop where
  blank : cs.head?.any isBlank = false
  comment : startsComment cs = false

theorem comment_refuses {offset : Nat} {cs : List Char} (plain : startsComment cs = false) :
    comment ⟨offset, cs⟩ = none := by
  have dashes : ¬ ['-', '-'].isPrefixOf cs = true := by
    intro front
    obtain ⟨rest, same⟩ := List.isPrefixOf_iff_prefix.mp front
    rw [startsComment_iff.mpr ⟨rest, same.symm⟩] at plain
    contradiction
  rw [comment, Scanner.thenIgnore, Scanner.just, if_neg dashes]
  rfl

theorem reads_blank {c : Char} {after : List Char} (holds : isBlank c = true) (offset : Nat) :
    blank.Reads offset [c] after () :=
  (Scanner.reads_satisfy holds).map _

theorem reads_comment {remark after : List Char} (inside : '\n' ∉ remark)
    (stops : ∀ c ∈ after.head?, c = '\n') (offset : Nat) :
    comment.Reads offset ('-' :: '-' :: remark) after () := by
  have all : ∀ c ∈ remark, decide (c ≠ '\n') = true := by
    intro c member
    rw [decide_eq_true_eq]
    rintro rfl
    exact inside member
  have stop : after.head?.any (fun c => decide (c ≠ '\n')) = false := by
    cases first : after.head? with
    | none => rfl
    | some c => simpa using stops c first
  exact (Scanner.reads_just ['-', '-']).thenIgnore (Scanner.reads_many_satisfy all stop)

theorem reads_trivia {gap after : List Char} (skipped : Trivia gap after) (bare : Bare after)
    (offset : Nat) : trivia.Reads offset gap after () := by
  have reads : ∃ us, (comment.orElse blank).many.Reads offset gap after us := by
    induction skipped generalizing offset with
    | @nothing after =>
      have refused : (comment.orElse blank) ⟨offset, after⟩ = none := by
        rw [Scanner.orElse, comment_refuses bare.comment, blank, Scanner.map,
          Scanner.satisfy_refuses bare.blank]
        rfl
      exact ⟨[], Scanner.reads_many_nil refused⟩
    | @blank c gap after blank _ ih =>
      have plain : startsComment (c :: (gap ++ after)) = false := by
        refine Bool.eq_false_iff.mpr (startsComment_cons ?_ _)
        rintro rfl
        exact absurd blank (by decide)
      have first := Scanner.Reads.orElse_of_refused (comment_refuses plain)
        (reads_blank blank offset)
      obtain ⟨us, others⟩ := ih bare (offset + Text.byteLength [c])
      exact ⟨_, first.many_cons (List.cons_ne_nil c []) others⟩
    | @comment remark gap after inside stops _ ih =>
      have first := (reads_comment inside stops offset).orElse (u := blank)
      obtain ⟨us, others⟩ := ih bare (offset + Text.byteLength ('-' :: '-' :: remark))
      exact ⟨_, first.many_cons (List.cons_ne_nil _ _) others⟩
  obtain ⟨us, reads⟩ := reads
  exact reads.map _

theorem word_refuses {offset : Nat} {cs : List Char} (stop : startsWord cs = false) :
    word ⟨offset, cs⟩ = none := by
  rw [word, Scanner.map, Scanner.many1_refuses (Scanner.satisfy_refuses stop)]
  rfl

theorem reads_lexeme {piece after : List Char} {t : Token} (found : Lexeme piece after t)
    (offset : Nat) : lexeme.Reads offset piece after t := by
  cases found with
  | word nonempty chars stop spelled =>
    have chars' : (Scanner.satisfy isWordChar).many.Reads offset piece after piece :=
      Scanner.reads_many_satisfy chars stop
    have reads : word.Reads offset piece after (ofWord piece) := (chars'.many1 nonempty).map ofWord
    rw [ofWord_eq_iff.mpr spelled] at reads
    exact reads.orElse
  | mark m =>
    have refused : word ⟨offset, m.char :: after⟩ = none := word_refuses (by cases m <;> rfl)
    have reads : symbol.Reads offset [m.char] after (.mark m) :=
      (Scanner.reads_one (by rw [Mark.ofChar?_char]; rfl)).orElse
    exact .orElse_of_refused refused reads
  | @illegal c _ outside blank noMark alone =>
    have refused : word ⟨offset, c :: after⟩ = none := word_refuses outside
    have unknown : Mark.ofChar? c = none :=
      Option.eq_none_iff_forall_ne_some.mpr fun m found =>
        noMark m (Mark.ofChar?_eq_some_iff.mp found)
    have reads : symbol.Reads offset [c] after (.illegal c) :=
      .orElse_of_refused (Scanner.one_refuses (by simp [unknown])) (Scanner.reads_one rfl)
    exact .orElse_of_refused refused reads

theorem Lexeme.bare {piece after : List Char} {t : Token} (found : Lexeme piece after t) :
    Bare (piece ++ after) := by
  cases found with
  | word nonempty chars =>
    cases piece with
    | nil => contradiction
    | cons c cs =>
      have wordChar : isWordChar c = true := chars c List.mem_cons_self
      refine ⟨Bool.eq_false_iff.mpr (not_blank_of_wordChar wordChar),
        Bool.eq_false_iff.mpr (startsComment_cons ?_ _)⟩
      rintro rfl
      exact absurd wordChar (by decide)
  | mark m => cases m <;> exact ⟨rfl, rfl⟩
  | @illegal c _ outside blank noMark alone =>
    refine ⟨blank, Bool.eq_false_iff.mpr fun comment => ?_⟩
    obtain ⟨rest, same⟩ := startsComment_iff.mp comment
    obtain ⟨rfl, rfl⟩ := List.cons.inj same
    exact alone rfl rfl

theorem reads_padded {α : Type} {s : Scanner α} {front piece gap rest : List Char} {a : α}
    {offset : Nat} (before : Trivia front (piece ++ (gap ++ rest)))
    (bare : Bare (piece ++ (gap ++ rest)))
    (reads : s.Reads (offset + Text.byteLength front) piece (gap ++ rest) a)
    (behind : Trivia gap rest) (bare' : Bare rest) :
    (padded s).Reads offset (front ++ piece ++ gap) rest a :=
  ((reads_trivia before bare offset).ignoreThen reads).thenIgnore (reads_trivia behind bare' _)

theorem padded_refuses {α : Type} {s : Scanner α} {offset : Nat} (refused : s ⟨offset, []⟩ = none) :
    padded s ⟨offset, []⟩ = none := by
  have before : trivia ⟨offset, []⟩ = some ((), ⟨offset, []⟩) :=
    reads_trivia .nothing ⟨rfl, rfl⟩ offset
  rw [padded, Scanner.thenIgnore, Scanner.ignoreThen, before, Option.bind_some, refused]
  rfl

theorem item_refuses (offset : Nat) : item ⟨offset, []⟩ = none := by
  have refused : lexeme ⟨offset, []⟩ = none := by
    rw [lexeme, Scanner.orElse, word_refuses rfl]
    rfl
  refine padded_refuses ?_
  rw [Scanner.map, Scanner.spanned, refused]
  rfl

theorem reads_item {piece gap rest : List Char} {t : Token} {offset : Nat}
    (found : Lexeme piece (gap ++ rest) t) (behind : Trivia gap rest) (bare : Bare rest) :
    item.Reads offset (piece ++ gap) rest ⟨t, ⟨offset, offset + Text.byteLength piece⟩⟩ :=
  reads_padded .nothing found.bare ((reads_lexeme found offset).spanned.map _) behind bare

/-- Once what comes before the first token is skipped, the tokens are read one by one. -/
theorem Covers.reads {offset : Nat} {cs : List Char} {ts : List Located}
    (covers : Covers offset cs ts) : ∃ gap rest, cs = gap ++ rest ∧ Trivia gap rest ∧ Bare rest ∧
      item.many.Reads (offset + Text.byteLength gap) rest [] ts := by
  induction covers with
  | @done offset gap trivia =>
    refine ⟨gap, [], (List.append_nil gap).symm, trivia, ⟨rfl, rfl⟩, ?_⟩
    exact Scanner.reads_many_nil (item_refuses _)
  | @next offset gap piece after t ts trivia found _ ih =>
    obtain ⟨gap', rest, rfl, behind, bare, others⟩ := ih
    refine ⟨gap, piece ++ (gap' ++ rest), rfl, trivia, found.bare, ?_⟩
    have nonempty : piece ++ gap' ≠ [] := fun nothing =>
      found.piece_ne_nil (List.append_eq_nil_iff.mp nothing).1
    rw [Nat.add_assoc _ (Text.byteLength piece), ← Text.byteLength_append] at others
    rw [← List.append_assoc]
    have first : item.Reads (offset + Text.byteLength gap) (piece ++ gap') rest _ :=
      reads_item found behind bare
    rw [← List.append_nil rest] at first
    exact first.many_cons nonempty others

theorem Covers.lex? {text : String} {ts : List Located} (covers : Covers 0 text.toList ts) :
    Token.lex? text = some ts := by
  obtain ⟨gap, rest, split, before, bare, tokens⟩ := covers.reads
  have whole : lexer.Reads 0 (gap ++ rest ++ []) [] ts := by
    refine reads_padded ?_ ?_ tokens .nothing ⟨rfl, rfl⟩
    · rwa [List.append_nil, List.append_nil]
    · rwa [List.append_nil, List.append_nil]
  rw [List.append_nil, ← split] at whole
  exact whole.run?

/-- Lexing never fails, and finds the tokens that scanning finds. -/
theorem lex?_eq (text : String) : lex? text = some (scanText text) :=
  (covers_scan 0 text.toList).lex?

end Token
end ProcessCalculus
