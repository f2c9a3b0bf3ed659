import ProcessCalculus.Proofs.Lexemes
import ProcessCalculus.Proofs.Positions

/-!
The tokens of a text tile it: they stand one behind the other, each for its own piece of the text,
and nothing but blanks and comments is left between them. Only the tokens that lexing finds do.
-/
namespace ProcessCalculus

namespace Token

/-- The spans between tokens, from one byte to another. -/
def gaps (start stop : Nat) : List Located → List Span
  | [] => [⟨start, stop⟩]
  | t :: ts => ⟨start, t.span.start⟩ :: gaps t.span.stop stop ts

/-- Tokens that tile a text from some byte on. -/
structure Tiles (text : String) (start : Nat) (ts : List Located) : Prop where
  nonempty : ∀ t ∈ ts, t.span.start < t.span.stop
  increasing : ts.Pairwise fun s t => s.span.stop ≤ t.span.start
  lexemes : ∀ t ∈ ts, ∃ before piece after,
    t.span.Cuts text before piece after ∧ Lexeme piece after t.token
  between : ∀ g ∈ gaps start text.utf8ByteSize ts, ∃ before gap after,
    g.Cuts text before gap after ∧ Trivia gap after

/-! Spans say the same as pieces in a row. -/

variable {text : String}

theorem Tiles.start_le {start : Nat} {ts : List Located} (tiles : Tiles text start ts) :
    ∀ t ∈ ts, start ≤ t.span.start := by
  cases ts with
  | nil => simp
  | cons first ts =>
    obtain ⟨before, gap, after, cuts, -⟩ := tiles.between _ List.mem_cons_self
    have reached : start ≤ first.span.start := cuts.start_le_stop
    intro t member
    rcases List.mem_cons.mp member with rfl | member
    · exact reached
    · have filled := tiles.nonempty first List.mem_cons_self
      have later := (List.pairwise_cons.mp tiles.increasing).1 t member
      omega

theorem Tiles.tail {start : Nat} {t : Located} {ts : List Located}
    (tiles : Tiles text start (t :: ts)) : Tiles text t.span.stop ts :=
  ⟨(List.forall_mem_cons.mp tiles.nonempty).2, (List.pairwise_cons.mp tiles.increasing).2,
    (List.forall_mem_cons.mp tiles.lexemes).2, (List.forall_mem_cons.mp tiles.between).2⟩

theorem Tiles.cons {start : Nat} {t : Located} {ts : List Located}
    {front gap piece after : List Char}
    (before : (⟨start, t.span.start⟩ : Span).Cuts text front gap (piece ++ after))
    (trivia : Trivia gap (piece ++ after)) (cuts : t.span.Cuts text (front ++ gap) piece after)
    (lexeme : Lexeme piece after t.token) (tiles : Tiles text t.span.stop ts) :
    Tiles text start (t :: ts) := by
  have filled : t.span.start < t.span.stop := by
    have bytes := Text.byteLength_pos lexeme.piece_ne_nil
    rw [cuts.start_eq, cuts.stop_eq]
    omega
  exact ⟨List.forall_mem_cons.mpr ⟨filled, tiles.nonempty⟩,
    List.pairwise_cons.mpr ⟨tiles.start_le, tiles.increasing⟩,
    List.forall_mem_cons.mpr ⟨⟨_, _, _, cuts, lexeme⟩, tiles.lexemes⟩,
    List.forall_mem_cons.mpr ⟨⟨_, _, _, before, trivia⟩, tiles.between⟩⟩

theorem Covers.tiles {offset : Nat} (front : List Char) {cs : List Char} {ts : List Located}
    (covers : Covers offset cs ts) (split : text.toList = front ++ cs)
    (start : offset = Text.byteLength front) : Tiles text offset ts := by
  induction covers generalizing front with
  | @done offset gap trivia =>
    have last : (⟨offset, text.utf8ByteSize⟩ : Span).Cuts text front gap [] := by
      refine ⟨by rw [split, List.append_nil], start, ?_⟩
      rw [utf8ByteSize_eq, split, Text.byteLength_append]
    exact ⟨by simp, .nil, by simp, List.forall_mem_singleton.mpr ⟨_, _, _, last, trivia⟩⟩
  | @next offset gap piece after t ts trivia lexeme _ ih =>
    have behind : text.toList = (front ++ gap ++ piece) ++ after := by
      rw [split]
      simp only [List.append_assoc]
    have stop : offset + Text.byteLength gap + Text.byteLength piece =
        Text.byteLength (front ++ gap ++ piece) := by
      rw [start, Text.byteLength_append, Text.byteLength_append]
    have cuts : (⟨offset + Text.byteLength gap,
        offset + Text.byteLength gap + Text.byteLength piece⟩ : Span).Cuts text
        (front ++ gap) piece after := by
      refine ⟨by rw [behind, List.append_assoc], ?_, ?_⟩ <;> rw [start, Text.byteLength_append]
    exact .cons ⟨split, start, by rw [start]⟩ trivia cuts lexeme (ih _ behind stop)

theorem Tiles.covers {offset : Nat} (front : List Char) {cs : List Char} {ts : List Located}
    (tiles : Tiles text offset ts) (split : text.toList = front ++ cs)
    (start : offset = Text.byteLength front) : Covers offset cs ts := by
  induction ts generalizing offset front cs with
  | nil =>
    obtain ⟨before, gap, after, cuts, trivia⟩ := tiles.between _ List.mem_cons_self
    obtain ⟨rfl, rfl⟩ := cuts.eq_of_split split start
    have nothing : after = [] := by
      have stop : text.utf8ByteSize = _ := cuts.stop_eq
      rw [utf8ByteSize_eq, cuts.text_eq, Text.byteLength_append, Text.byteLength_append] at stop
      by_contra some
      have more := Text.byteLength_pos some
      omega
    subst nothing
    rw [List.append_nil]
    exact .done trivia
  | cons t ts ih =>
    obtain ⟨before, gap, after, cuts, trivia⟩ := tiles.between _ List.mem_cons_self
    obtain ⟨rfl, rfl⟩ := cuts.eq_of_split split start
    obtain ⟨before', piece, rest, cuts', lexeme⟩ := tiles.lexemes _ List.mem_cons_self
    have reached : t.span.start = offset + Text.byteLength gap := by
      rw [start]
      exact cuts.stop_eq
    rw [← List.append_assoc] at split
    obtain ⟨rfl, rfl⟩ := cuts'.eq_of_split split (by rw [reached, start, Text.byteLength_append])
    have stop : t.span.stop = offset + Text.byteLength gap + Text.byteLength piece := by
      rw [cuts'.stop_eq, ← cuts'.start_eq, reached]
    have behind : text.toList = (before ++ gap ++ piece) ++ rest := by
      rw [split, List.append_assoc (before ++ gap)]
    have covers := ih (before ++ gap ++ piece) tiles.tail behind
      (by rw [cuts'.stop_eq, Text.byteLength_append _ piece])
    obtain ⟨token, ⟨from', to'⟩⟩ := t
    dsimp only at reached stop covers
    subst reached stop
    exact .next trivia lexeme covers

/-- Lexing never fails, and finds what scanning finds: the one list of tokens that tile the text. -/
theorem lex?_tiles (text : String) : lex? text = some (scanText text) ∧
    ∀ ts, Tiles text 0 ts ↔ ts = scanText text := by
  refine ⟨lex?_eq text, fun ts => ⟨fun tiles => ?_, ?_⟩⟩
  · have found := (tiles.covers [] rfl rfl).lex?
    rw [lex?_eq, Option.some.injEq] at found
    exact found.symm
  · rintro rfl
    exact (covers_scan 0 text.toList).tiles [] rfl rfl

example : scanText "x---y\n- 99999999999999999999" =
    [⟨.identifier "x", ⟨0, 1⟩⟩, ⟨.illegal '-', ⟨6, 7⟩⟩,
      ⟨.identifier "99999999999999999999", ⟨8, 28⟩⟩] := by
  decide +kernel

end Token
end ProcessCalculus
