import Mathlib.Data.List.Chain
import ProcessCalculus.Proofs.Tiling

/-!
Tokens are read back from their texts, however these are set apart. Blanks and comments may stand
before and behind every token and may be missing, except that two words need something between
them.
-/
namespace ProcessCalculus.Token

/-! What may stand between two tokens, and what at the end. -/

/-- Blanks, and comments each with the newline that ends it. -/
inductive Spacing : List Char → Prop where
  | nothing : Spacing []
  | blank {c : Char} {gap : List Char} : isBlank c = true → Spacing gap → Spacing (c :: gap)
  | comment {remark gap : List Char} : '\n' ∉ remark → Spacing gap →
      Spacing ('-' :: '-' :: (remark ++ '\n' :: gap))

/-- Behind the last token the text may end within a comment. -/
inductive Ending : List Char → Prop where
  | spacing {gap : List Char} : Spacing gap → Ending gap
  | comment {gap remark : List Char} : Spacing gap → '\n' ∉ remark →
      Ending (gap ++ '-' :: '-' :: remark)

theorem Spacing.append {gap rest after : List Char} (spacing : Spacing gap)
    (trivia : Trivia rest after) : Trivia (gap ++ rest) after := by
  induction spacing with
  | nothing => exact trivia
  | blank blank _ ih => exact .blank blank ih
  | @comment remark gap inside _ ih =>
    have line : '-' :: '-' :: (remark ++ '\n' :: gap) ++ rest =
        '-' :: '-' :: (remark ++ '\n' :: (gap ++ rest)) := by simp
    rw [line]
    refine .comment inside ?_ (.blank (by decide) ih)
    intro c first
    exact (Option.some.inj first).symm

theorem Spacing.trivia {gap : List Char} (spacing : Spacing gap) (after : List Char) :
    Trivia gap after := by
  have whole : Trivia (gap ++ []) after := spacing.append .nothing
  rwa [List.append_nil] at whole

theorem Ending.trivia {gap : List Char} (ending : Ending gap) : Trivia gap [] := by
  cases ending with
  | spacing spacing => exact spacing.trivia []
  | @comment gap remark spacing inside =>
    have last : Trivia ('-' :: '-' :: (remark ++ [])) [] :=
      .comment inside (by simp) .nothing
    rw [List.append_nil] at last
    exact spacing.append last

theorem Spacing.startsWord {gap : List Char} (spacing : Spacing gap) (nonempty : gap ≠ [])
    (rest : List Char) : startsWord (gap ++ rest) = false := by
  cases spacing with
  | nothing => contradiction
  | @blank c gap blank _ =>
    by_contra wordChar
    exact not_blank_of_wordChar (by simpa [Token.startsWord] using wordChar) blank
  | comment => rfl

theorem Ending.startsWord {gap : List Char} (ending : Ending gap) :
    Token.startsWord gap = false := by
  have separate {gap : List Char} (spacing : Spacing gap) (rest : List Char)
      (shut : Token.startsWord rest = false) : Token.startsWord (gap ++ rest) = false := by
    by_cases nonempty : gap = []
    · rwa [nonempty]
    · exact spacing.startsWord nonempty rest
  cases ending with
  | spacing spacing =>
    have whole := separate spacing [] rfl
    rwa [List.append_nil] at whole
  | comment spacing _ => exact separate spacing _ rfl

/-! Tokens and their texts. -/

/-- Tokens that a word spells. -/
def isWordLike : Token → Bool
  | .keyword _ | .identifier _ | .number _ => true
  | .mark _ | .illegal _ => false

theorem lexeme_text {t : Token} (formed : t.Formed) (legal : ∀ c, t ≠ .illegal c)
    {after : List Char} (apart : t.isWordLike = true → startsWord after = false) :
    Lexeme t.text.toList after t := by
  cases t with
  | mark m =>
    have text : (Token.mark m).text.toList = [m.char] := by simp [text, Char.toString]
    rw [text]
    exact .mark m
  | keyword k => exact .word (chars_keyword k).1 (chars_keyword k).2 (apart rfl) (.keyword rfl)
  | identifier x =>
    exact .word formed.nonempty formed.chars (apart rfl)
      (ofWord_eq_iff.mp (ofWord_of_isWord formed))
  | number n =>
    obtain ⟨chars, spelling⟩ := spelled_number formed
    have nonempty : (toString n.toInt).toList ≠ [] := by
      intro empty
      rw [empty, spelled_nil] at spelling
      contradiction
    rw [spelled_of_all nonempty chars] at spelling
    exact .word nonempty chars (apart rfl) (ofWord_eq_iff.mp (List.cons.inj spelling).1)
  | illegal c => exact absurd rfl (legal c)

/-- A token, and what stands between it and the token before. -/
structure Spaced where
  gap : List Char
  token : Token

def Spaced.text (x : Spaced) : List Char := x.gap ++ x.token.text.toList

/-- The tokens with the bytes of their texts, where the first gap starts at byte `offset`. -/
def located (offset : Nat) : List Spaced → List Located
  | [] => []
  | x :: xs =>
    let start := offset + Text.byteLength x.gap
    let stop := start + Text.byteLength x.token.text.toList
    ⟨x.token, ⟨start, stop⟩⟩ :: located stop xs

/-- Tokens that can be set in a text in this way, up to its end. -/
structure Arranged (xs : List Spaced) (rest : List Char) : Prop where
  spacing : ∀ x ∈ xs, Spacing x.gap
  formed : ∀ x ∈ xs, x.token.Formed
  legal : ∀ x ∈ xs, ∀ c, x.token ≠ .illegal c
  apart : xs.IsChain fun x y =>
    x.token.isWordLike = true → y.token.isWordLike = true → y.gap ≠ []
  ending : Ending rest

variable {x : Spaced} {xs : List Spaced} {rest : List Char}

theorem Arranged.tail (arranged : Arranged (x :: xs) rest) : Arranged xs rest :=
  ⟨(List.forall_mem_cons.mp arranged.spacing).2, (List.forall_mem_cons.mp arranged.formed).2,
    (List.forall_mem_cons.mp arranged.legal).2, arranged.apart.tail, arranged.ending⟩

/-- No word goes on behind a token that is one. -/
theorem Arranged.startsWord (arranged : Arranged (x :: xs) rest)
    (wordLike : x.token.isWordLike = true) :
    startsWord (xs.flatMap Spaced.text ++ rest) = false := by
  cases xs with
  | nil => exact arranged.ending.startsWord
  | cons y ys =>
    have next : y ∈ x :: y :: ys := List.mem_cons_of_mem _ List.mem_cons_self
    have spacing := arranged.spacing y next
    rw [List.flatMap_cons, Spaced.text, List.append_assoc, List.append_assoc]
    by_cases nonempty : y.gap = []
    · have other : ¬ y.token.isWordLike = true := fun both =>
        (List.isChain_cons_cons.mp arranged.apart).1 wordLike both nonempty
      rw [nonempty]
      cases kind : y.token with
      | mark m => cases m <;> rfl
      | illegal c => exact absurd kind (arranged.legal y next c)
      | keyword k => exact absurd rfl (kind ▸ other)
      | identifier x => exact absurd rfl (kind ▸ other)
      | number n => exact absurd rfl (kind ▸ other)
    · exact spacing.startsWord nonempty _

theorem Arranged.covers (arranged : Arranged xs rest) (offset : Nat) :
    Covers offset (xs.flatMap Spaced.text ++ rest) (located offset xs) := by
  induction xs generalizing offset with
  | nil => exact .done arranged.ending.trivia
  | cons x xs ih =>
    have first : x ∈ x :: xs := List.mem_cons_self
    rw [List.flatMap_cons, Spaced.text, List.append_assoc, List.append_assoc]
    exact .next ((arranged.spacing x first).trivia _)
      (lexeme_text (arranged.formed x first) (arranged.legal x first) arranged.startsWord)
      (ih arranged.tail _)

/-- Lexing a text that is made of tokens finds these tokens, each at its own text. -/
theorem lex?_arranged (xs : List Spaced) (rest : List Char) (arranged : Arranged xs rest) :
    lex? (String.ofList (xs.flatMap Spaced.text ++ rest)) = some (located 0 xs) := by
  have covers := arranged.covers 0
  rw [← String.toList_ofList (l := xs.flatMap Spaced.text ++ rest)] at covers
  exact covers.lex?

/-- A comment that touches the words on both sides, with marks of its own in it. -/
def remarkedSend : List Spaced :=
  [⟨[], .keyword .send⟩, ⟨"--é call y;\n".toList, .identifier "x"⟩, ⟨[], .mark .semicolon⟩]

theorem arranged_remarkedSend : Arranged remarkedSend "--".toList := by
  have plain : '\n' ∉ "é call y;".toList := by decide
  have remark : Spacing "--é call y;\n".toList := .comment plain .nothing
  have openEnd : Ending ([] ++ '-' :: '-' :: []) := .comment .nothing List.not_mem_nil
  have word : IsWord "x" := by decide
  refine ⟨?_, ?_, ?_, ?_, openEnd⟩
  · exact List.forall_mem_cons.mpr ⟨.nothing,
      List.forall_mem_cons.mpr ⟨remark, List.forall_mem_singleton.mpr .nothing⟩⟩
  · simp [remarkedSend, Formed, word]
  · simp [remarkedSend]
  · simp [remarkedSend, isWordLike]

theorem lex?_arranged_remarkedSend : Arranged remarkedSend "--".toList ∧
    lex? "send--é call y;\nx;--" = some [⟨.keyword .send, ⟨0, 4⟩⟩,
      ⟨.identifier "x", ⟨17, 18⟩⟩, ⟨.mark .semicolon, ⟨18, 19⟩⟩] := by
  refine ⟨arranged_remarkedSend, ?_⟩
  have text : "send--é call y;\nx;--" =
      String.ofList (remarkedSend.flatMap Spaced.text ++ "--".toList) := by decide
  rw [text, lex?_arranged remarkedSend _ arranged_remarkedSend]
  decide

end ProcessCalculus.Token
