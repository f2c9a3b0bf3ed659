import ProcessCalculus.Proofs.Lexemes
import ProcessCalculus.Proofs.Positions
import ProcessCalculus.Proofs.Viability

/-!
A refused text is blamed at its first token that cannot be right: some accepted text begins with the
tokens before it, and none begins with it as well. Where every token can be right, the text stops
too early and its end is blamed. What is blamed does not depend on how much is told about it.
-/
namespace ProcessCalculus

/-! Tokens end between two characters, so the index of a text finds the end of each. -/

/-- The end of a token is the length of the characters up to there. -/
theorem Token.stop_of_scan (offset : Nat) (cs : List Char) : ∀ t ∈ scan offset cs,
    ∃ before after, cs = before ++ after ∧ t.span.stop = offset + Text.byteLength before := by
  -- what is skipped or read first stands before whatever the rest of the scan finds
  have behind (first : List Char) {offset : Nat} {rest : List Char} {t : Located}
      (found : ∃ before after, rest = before ++ after ∧
        t.span.stop = offset + Text.byteLength first + Text.byteLength before) :
      ∃ before after, first ++ rest = before ++ after ∧
        t.span.stop = offset + Text.byteLength before := by
    obtain ⟨before, after, rfl, stop⟩ := found
    refine ⟨first ++ before, after, by rw [List.append_assoc], ?_⟩
    rw [stop, Text.byteLength_append, Nat.add_assoc]
  fun_induction scan offset cs with
  | case1 => simp
  | case2 offset c rest blank ih =>
    intro t member
    exact behind [c] (ih t member)
  | case3 offset c rest blank comment ih =>
    intro t member
    have found := behind (c :: rest.takeWhile (· ≠ '\n')) (ih t member)
    rwa [List.cons_append, List.takeWhile_append_dropWhile] at found
  | case4 offset c rest blank comment wordChar word stop ih =>
    intro t member
    have parts : word ++ rest.dropWhile isWordChar = c :: rest := by
      rw [List.cons_append, List.takeWhile_append_dropWhile]
    rcases List.mem_cons.mp member with rfl | member
    · exact ⟨word, _, parts.symm, rfl⟩
    · have found := behind word (ih t member)
      rwa [parts] at found
  | case5 offset c rest blank comment wordChar stop ih =>
    intro t member
    rcases List.mem_cons.mp member with rfl | member
    · exact ⟨[c], rest, rfl, rfl⟩
    · exact behind [c] (ih t member)

theorem Token.position?_stop {text : String} {t : Located} (member : t ∈ scanText text) :
    (LineIndex.ofText text).position? t.span.stop =
      some (Position.ofOffset text t.span.stop) := by
  obtain ⟨before, after, split, stop⟩ := stop_of_scan 0 text.toList t member
  simpa only [stop, Nat.zero_add] using LineIndex.position?_eq_ofOffset split

/-! Where the machine stops. -/

theorem Grammar.State.advance_stops {α : Type} {token : α → Token} {s last : State}
    {items after : List α} {k : α} (stops : s.advance token items = (last, k :: after)) :
    ∃ before, items = before ++ k :: after ∧ s.run (before.map token) = some last ∧
      last.step (token k) = none := by
  induction items generalizing s with
  | nil => simp [advance] at stops
  | cons i items ih =>
    rw [advance] at stops
    split at stops
    · next next step =>
      obtain ⟨before, rfl, run, refused⟩ := ih stops
      exact ⟨i :: before, rfl, run_step step run, refused⟩
    · next refused =>
      cases stops
      exact ⟨[], rfl, rfl, refused⟩

open Grammar (State)

/-- What a refused text is blamed for: a token that the lexer finds, or that it ends where it
does. -/
inductive BreaksOff (text : String) : Span → Prop where
  | token {before after : List Located} {t : Located} :
      Token.lex? text = some (before ++ t :: after) → Viable (before.map Located.token) →
      ¬ Viable ((before ++ [t]).map Located.token) → BreaksOff text t.span
  | stop {ts : List Located} : Token.lex? text = some ts → Viable (ts.map Located.token) →
      ¬ Accepted (ts.map Located.token) → BreaksOff text ⟨text.utf8ByteSize, text.utf8ByteSize⟩

namespace Program

theorem formed_before {text : String} {before after : List Located}
    (scanned : Token.scanText text = before ++ after) :
    ∀ t ∈ before.map Located.token, t.Formed := by
  intro t member
  refine Token.formed_tokens text t ?_
  rw [scanned, List.map_append]
  exact List.mem_append_left _ member

theorem breaksOff_token {text : String} {s : State} {t : Located} {after : List Located}
    (stops : State.start.advance Located.token (Token.scanText text) = (s, t :: after)) :
    BreaksOff text t.span := by
  obtain ⟨before, scanned, run, refused⟩ := State.advance_stops stops
  have formed := formed_before scanned
  have lexed := (Token.lex?_eq text).trans (congrArg some scanned)
  refine .token lexed ((viable_iff formed).mpr ⟨s, run⟩) fun viable => ?_
  rw [List.map_append] at viable
  have steps := ((viable_snoc_iff formed run).mp viable).2
  rw [refused] at steps
  contradiction

theorem breaksOff_stop {text : String} {s : State}
    (reads : State.start.advance Located.token (Token.scanText text) = (s, []))
    (unfinished : s.finish? = none) :
    BreaksOff text ⟨text.utf8ByteSize, text.utf8ByteSize⟩ := by
  have run := State.advance_eq_nil_iff.mp reads
  refine .stop (Token.lex?_eq text) ((viable_iff (Token.formed_tokens text)).mpr ⟨s, run⟩)
    fun accepted => ?_
  obtain ⟨last, ds, reached, finish⟩ := accepted.run
  obtain rfl := Option.some.inj (run.symm.trans reached)
  rw [unfinished] at finish
  contradiction

theorem readDefinitions_refuses {text : String} {e : SyntaxError}
    (refused : readDefinitions text = .error e) :
    BreaksOff text e.span ∧
      (LineIndex.ofText text).position? e.span.stop = some e.position := by
  rw [readDefinitions] at refused
  split at refused
  · next s reads =>
    split at refused
    · contradiction
    · next unfinished =>
      cases refused
      refine ⟨breaksOff_stop reads unfinished, ?_⟩
      simpa only [utf8ByteSize_eq] using LineIndex.position?_eq_ofOffset (List.append_nil _).symm
  · next s t after stops =>
    cases refused
    obtain ⟨before, scanned, -, -⟩ := State.advance_stops stops
    have member : t ∈ Token.scanText text := by
      rw [scanned]
      exact List.mem_append_right before List.mem_cons_self
    exact ⟨breaksOff_token stops, Token.position?_stop member⟩

theorem readWith_eq_ok_iff {verbose : Bool} {text : String} {p : Program} :
    readWith verbose text = .ok p ↔ read text = .ok p := by
  rw [readWith]
  cases read text <;> simp [Except.mapError]

theorem readWith_of_error {verbose : Bool} {text : String} {e : SyntaxError}
    (refused : readDefinitions text = .error e) :
    readWith verbose text = .error (e.complaint verbose) := by
  rw [readWith, read, refused]
  rfl

theorem readWith_error {verbose : Bool} {text : String} {c : Complaint}
    (refused : readWith verbose text = .error c) :
    ∃ e, readDefinitions text = .error e ∧ c = e.complaint verbose := by
  rw [readWith, read] at refused
  cases definitions : readDefinitions text with
  | ok ds =>
    rw [definitions] at refused
    contradiction
  | error e =>
    rw [definitions] at refused
    cases refused
    exact ⟨e, rfl, rfl⟩

/-- A refused text is blamed at its first token that no accepted text has there, or at its end
where all of it begins one, and the index of the text finds the position that is told, that of the
end of what is blamed. How much is told changes neither the program nor what is blamed. -/
theorem readWith_blames :
    (∀ verbose text c, readWith verbose text = .error c →
      BreaksOff text c.span ∧
        (LineIndex.ofText text).position? c.span.stop = some c.position) ∧
    ∀ text, (∃ p, ∀ verbose, readWith verbose text = .ok p) ∨
      ∃ span position detail, readWith false text = .error ⟨span, position, "syntax error"⟩ ∧
        readWith true text = .error ⟨span, position, detail⟩ := by
  refine ⟨fun verbose text c refused => ?_, fun text => ?_⟩
  · obtain ⟨e, definitions, rfl⟩ := readWith_error refused
    exact readDefinitions_refuses definitions
  · cases result : read text with
    | ok p =>
      refine .inl ⟨p, fun verbose => ?_⟩
      rw [readWith, result]
      rfl
    | error e =>
      refine .inr ⟨e.span, e.position, e.detail true, ?_, ?_⟩
      · rw [readWith, result]
        rfl
      · rw [readWith, result]
        rfl

/-- The semicolon is blamed, in the place of a name. -/
theorem readWith_blames_semicolon :
    readWith true "def main(): send;" = .error ⟨⟨16, 17⟩, ⟨1, 17⟩,
      "syntax error: unexpected ';', expecting identifier"⟩ ∧
    BreaksOff "def main(): send;" ⟨16, 17⟩ ∧
    (LineIndex.ofText "def main(): send;").position? 17 = some ⟨1, 17⟩ := by
  have refused : readWith true "def main(): send;" = .error ⟨⟨16, 17⟩, ⟨1, 17⟩,
      "syntax error: unexpected ';', expecting identifier"⟩ := by decide +kernel
  exact ⟨refused, readWith_blames.1 true _ _ refused⟩

end Program
end ProcessCalculus
