import Mathlib.Data.List.Nodup
import ProcessCalculus.Proofs.Refusal

/-!
What a verbose complaint expects. The patterns of a state cover the tokens that the machine steps
on and no others, and every state can be completed, so they tell what some accepted text has next.
The labels of different patterns differ, so none has to be left out before the first four are shown.
-/
namespace ProcessCalculus

/-- How complaints show fixed texts among what they expect. -/
def quoted (text : String) : String := "''" ++ text ++ "''"

theorem quoted_inj {x y : String} : quoted x = quoted y ↔ x = y := by
  rw [quoted, quoted, String.append_left_inj, String.append_right_inj]

theorem quoted_ne {y : String} (plain : y.toList.head? ≠ "''".toList.head?) (x : String) :
    quoted x ≠ y := by
  rintro rfl
  refine plain ?_
  rw [quoted, String.append_assoc, String.toList_append, List.head?_append_of_ne_nil _ (by decide)]

theorem quoted_ne_identifier : ∀ x, quoted x ≠ "identifier" := quoted_ne (by decide)

theorem quoted_ne_number : ∀ x, quoted x ≠ "number" := quoted_ne (by decide)

/-- A token as complaints show it among those expected: itself, or only its kind. -/
def Token.display : Token → String
  | .identifier _ => "identifier"
  | .number _ => "number"
  | t => quoted t.text

theorem Token.display_ne_endOfInput (t : Token) : t.display ≠ "end of input" := by
  cases t with
  | identifier x => exact show "identifier" ≠ "end of input" by decide
  | number n => exact show "number" ≠ "end of input" by decide
  | _ => exact quoted_ne (by decide) _

/-- What accepted texts that begin with these tokens have next, as complaints show it. -/
inductive CanFollow (ts : List Token) : String → Prop where
  | token {t : Token} : Viable (ts ++ [t]) → CanFollow ts t.display
  | stop : Accepted ts → CanFollow ts "end of input"

namespace Grammar

variable {context : Context} {read : List Statement}

/-! A state steps on the tokens that its patterns cover. -/

theorem NameList.isSome_step (list : NameList) (t : Token) :
    (list.step t).isSome = list.expected.any (·.covers t) := by
  cases list <;> cases t with
  | mark m => cases m <;> rfl
  | _ => rfl

theorem isSome_step_clause (c : Clause) (t : Token) :
    ((State.clause context read c).step t).isSome = c.expected.any (·.covers t) := by
  cases c with
  | arguments m f list =>
    rw [holds_arguments context read m f, Option.isSome_map, list.isSome_step, Clause.expected]
  | _ =>
    cases t with
    | mark m => cases m <;> rfl
    | keyword k => cases k <;> rfl
    | _ => rfl

theorem Context.isSome_leave? (context : Context) (b : Block) (k : Keyword) :
    (context.leave? b k).isSome = context.closers.any (·.covers (.keyword k)) := by
  cases context <;> cases k <;> rfl

/-- A keyword turns a block to a statement or, where it has statements, to what surrounds it. -/
theorem Context.isSome_turn? (context : Context) (read : List Statement) (k : Keyword) :
    (context.turn? read k).isSome =
      (statementStarts.any (· = k) || (read ≠ [] && (context.leave? read.reverse k).isSome)) := by
  cases read <;> cases k <;> rfl

/-- Only a keyword turns a block, and its patterns are keywords and the end. -/
theorem isSome_step_block (context : Context) (read : List Statement) (t : Token) :
    ((State.block context read).step t).isSome =
      (State.block context read).expected.any (·.covers t) := by
  cases t with
  | keyword k =>
    rw [State.step, context.isSome_turn?, context.isSome_leave?, State.expected, List.any_append,
      List.any_map]
    cases read <;> rfl
  | _ => cases read <;> cases context <;> rfl

theorem State.isSome_step (s : State) (t : Token) :
    (s.step t).isSome = s.expected.any (·.covers t) := by
  cases s with
  | formals before f list =>
    rw [holds_formals before f, Option.isSome_map, list.isSome_step, expected]
  | block context read => exact isSome_step_block context read t
  | clause context read c => exact isSome_step_clause c t
  | _ =>
    cases t with
    | mark m => cases m <;> rfl
    | keyword k => cases k <;> rfl
    | _ => rfl

theorem State.isSome_finish? (s : State) :
    s.finish?.isSome = s.expected.contains .endOfInput := by
  cases s with
  | formals before f list => cases list <;> rfl
  | block context read => cases read <;> cases context <;> rfl
  | clause context read c =>
    cases c with
    | arguments m f list => cases list <;> rfl
    | _ => rfl
  | _ => rfl

theorem State.nodup_expected (s : State) : s.expected.Nodup := by
  have names (list : NameList) : list.expected.Nodup := by
    cases list <;> simp [NameList.expected]
  cases s with
  | formals before f list => exact names list
  | block context read =>
    cases read <;> cases context <;> simp [expected, statementStarts, Context.closers]
  | clause context read c =>
    cases c with
    | arguments m f list => exact names list
    | _ => simp [expected, Clause.expected]
  | _ => simp [expected]

/-- Some token or the end can come next, as the program can be completed. -/
theorem State.expected_ne_nil (s : State) : s.expected ≠ [] := by
  obtain ⟨ts, last, ds, -, run, finish⟩ := s.completes
  cases ts with
  | nil =>
    cases run
    have ends := s.isSome_finish?
    rw [finish] at ends
    exact List.ne_nil_of_mem (List.contains_iff_mem.mp ends.symm)
  | cons t ts =>
    rw [run_cons, Option.bind_eq_some_iff] at run
    obtain ⟨next, step, -⟩ := run
    have covered := s.isSome_step t
    rw [step] at covered
    obtain ⟨q, member, -⟩ := List.any_eq_true.mp covered.symm
    exact List.ne_nil_of_mem member

/-! The label of a pattern is what the tokens that it covers are shown as. -/

namespace Pattern

/-- No keyword is a single character. -/
theorem text_ne_toString (k : Keyword) (c : Char) : k.text ≠ c.toString := by
  have longer : k.text.length ≠ 1 := by cases k <;> decide
  intro same
  rw [same] at longer
  exact longer String.length_singleton

theorem label_eq_display_of_covers {q : Pattern} {t : Token} (covered : q.covers t = true) :
    q.label = t.display := by
  cases q <;> cases t <;> simp_all [covers] <;> rfl

theorem covers_of_label_eq {q : Pattern} {t : Token}
    (other : ∀ c, t = .illegal c → Mark.ofChar? c = none) (same : q.label = t.display) :
    q.covers t = true := by
  have mark (m n : Mark) (chars : m.char = n.char) : m = n := by
    rw [← Option.some_inj, ← Mark.ofChar?_char, chars, Mark.ofChar?_char]
  cases q with
  | mark m =>
    cases t with
    | mark n => exact decide_eq_true (mark m n (String.singleton_inj.mp (quoted_inj.mp same)))
    | keyword k => exact absurd (quoted_inj.mp same).symm (text_ne_toString k m.char)
    | identifier x => exact absurd same (quoted_ne_identifier _)
    | number n => exact absurd same (quoted_ne_number _)
    | illegal c =>
      have chars : m.char = c := String.singleton_inj.mp (quoted_inj.mp same)
      have unknown := other c rfl
      rw [← chars, Mark.ofChar?_char] at unknown
      contradiction
  | keyword k =>
    cases t with
    | mark n => exact absurd (quoted_inj.mp same) (text_ne_toString k n.char)
    | keyword l => exact decide_eq_true (Keyword.text_injective (quoted_inj.mp same))
    | identifier x => exact absurd same (quoted_ne_identifier _)
    | number n => exact absurd same (quoted_ne_number _)
    | illegal c => exact absurd (quoted_inj.mp same) (text_ne_toString k c)
  | identifier =>
    cases t with
    | identifier x => rfl
    | number n => exact absurd same (show "identifier" ≠ "number" by decide)
    | _ => exact absurd same.symm (quoted_ne_identifier _)
  | number =>
    cases t with
    | number n => rfl
    | identifier x => exact absurd same (show "number" ≠ "identifier" by decide)
    | _ => exact absurd same.symm (quoted_ne_number _)
  | endOfInput => exact absurd same.symm t.display_ne_endOfInput

theorem exists_covered {q : Pattern} (token : q ≠ .endOfInput) :
    ∃ t : Token, t.Formed ∧ q.covers t = true := by
  cases q with
  | mark m => exact ⟨.mark m, trivial, decide_eq_true rfl⟩
  | keyword k => exact ⟨.keyword k, trivial, decide_eq_true rfl⟩
  | identifier => exact ⟨_, formed_name, rfl⟩
  | number => exact ⟨.number 0, show 0 ≤ Int64.toInt 0 by decide, rfl⟩
  | endOfInput => contradiction

theorem eq_of_covers {p q : Pattern} {t : Token} (first : p.covers t = true)
    (second : q.covers t = true) : p = q := by
  cases p <;> cases q <;> cases t <;> simp_all [covers]

/-- Labels tell patterns apart: one that covers a token has the label that it is shown as. -/
theorem label_injective : Function.Injective label := by
  have unlike (q : Pattern) (token : q ≠ .endOfInput) : q.label ≠ label .endOfInput := by
    obtain ⟨t, -, covered⟩ := exists_covered token
    rw [label_eq_display_of_covers covered]
    exact t.display_ne_endOfInput
  intro p q same
  by_cases stop : p = .endOfInput
  · rw [stop] at same ⊢
    by_contra other
    exact unlike q (Ne.symm other) same.symm
  · obtain ⟨t, -, covered⟩ := exists_covered stop
    have legal (c : Char) (illegal : t = .illegal c) : Mark.ofChar? c = none := by
      rw [illegal] at covered
      cases p <;> contradiction
    rw [label_eq_display_of_covers covered] at same
    exact eq_of_covers covered (covers_of_label_eq legal same.symm)

end Pattern

variable {ts : List Token} {s : State}

theorem mem_labels_iff (formed : ∀ t ∈ ts, t.Formed) (run : State.start.run ts = some s)
    (label : String) : label ∈ s.expected.map Pattern.label ↔ CanFollow ts label := by
  constructor
  · intro member
    obtain ⟨q, expected, rfl⟩ := List.mem_map.mp member
    by_cases stop : q = .endOfInput
    · rw [stop] at expected ⊢
      have finishes := s.isSome_finish?
      rw [List.contains_iff_mem.mpr expected] at finishes
      obtain ⟨ds, finish⟩ := Option.isSome_iff_exists.mp finishes
      exact .stop (accepted_iff.mpr ⟨formed, s, ds, run, finish⟩)
    · -- any token of the kind will do, as the state after it can be completed
      obtain ⟨t, last, covered⟩ := Pattern.exists_covered stop
      rw [Pattern.label_eq_display_of_covers covered]
      refine .token ((viable_snoc_iff formed run).mpr ⟨last, ?_⟩)
      rw [s.isSome_step]
      exact List.any_eq_true.mpr ⟨q, expected, covered⟩
  · rintro (viable | accepted)
    · have steps := ((viable_snoc_iff formed run).mp viable).2
      rw [s.isSome_step] at steps
      obtain ⟨q, expected, covered⟩ := List.any_eq_true.mp steps
      exact List.mem_map.mpr ⟨q, expected, Pattern.label_eq_display_of_covers covered⟩
    · obtain ⟨last, ds, reached, finish⟩ := accepted.run
      obtain rfl := Option.some.inj (run.symm.trans reached)
      have finishes := s.isSome_finish?
      rw [finish] at finishes
      exact List.mem_map.mpr ⟨_, List.contains_iff_mem.mp finishes.symm, rfl⟩

end Grammar

open Grammar (Pattern State)

/-- A complaint about a text that breaks off after some tokens, drawn from all that could have stood
there: the first four are told, and what was found is not among them. -/
structure Expects (text : String) (c : Complaint) (before after : List Located)
    (labels : List String) : Prop where
  scanned : Token.scanText text = before ++ after
  span : c.span =
    (after.head?.map (·.span)).getD ⟨text.utf8ByteSize, text.utf8ByteSize⟩
  detail : c.detail = "syntax error: unexpected " ++
    (after.head?.map fun t => "'" ++ t.token.text ++ "'").getD "end of input" ++
    ", expecting " ++ " or ".intercalate (labels.take 4)
  possible : ∀ label, label ∈ labels ↔ CanFollow (before.map (·.token)) label
  sorted : labels.Pairwise (· < ·)
  nonempty : labels ≠ []
  unexpected : (after.head?.map (·.token.display)).getD "end of input" ∉ labels

/-- Distinct labels, sorted, ascend. -/
theorem pairwise_lt_mergeSort {labels : List String} (distinct : labels.Nodup) :
    (labels.mergeSort (· ≤ ·)).Pairwise (· < ·) := by
  have transitive (x y z : String) (first : decide (x ≤ y) = true)
      (second : decide (y ≤ z) = true) : decide (x ≤ z) = true :=
    decide_eq_true (String.le_trans (of_decide_eq_true first) (of_decide_eq_true second))
  have total (x y : String) : (decide (x ≤ y) || decide (y ≤ x)) = true := by
    rw [Bool.or_eq_true, decide_eq_true_iff, decide_eq_true_iff]
    exact String.le_total x y
  have sorted := List.pairwise_mergeSort transitive total labels
  have apart := (labels.mergeSort_perm (· ≤ ·)).nodup_iff.mpr distinct
  refine sorted.imp₂ (fun x y least other => ?_) apart
  exact String.not_le.mp fun reverse =>
    other (String.le_antisymm (of_decide_eq_true least) reverse)

theorem detail_eq {e : SyntaxError} (some : e.expected ≠ []) :
    e.detail true = "syntax error: unexpected " ++
      (e.found.map fun t => "'" ++ t.text ++ "'").getD "end of input" ++
      ", expecting " ++ " or ".intercalate e.shownExpected := by
  rw [SyntaxError.detail, if_pos rfl, if_neg some, String.append_assoc, String.append_assoc]
  cases e.found <;> rfl

/-- What is told where the machine stops, if it stops for what it finds. -/
theorem expects_of_run {text : String} {s : State} {before after : List Located}
    (scanned : Token.scanText text = before ++ after)
    (run : State.start.run (before.map (·.token)) = some s)
    (unexpected : (after.head?.map (·.token.display)).getD "end of input" ∉
      s.expected.map Pattern.label) (position : Position) :
    Expects text (SyntaxError.complaint ⟨after.head?.map (·.token), s.expected,
      (after.head?.map (·.span)).getD ⟨text.utf8ByteSize, text.utf8ByteSize⟩, position⟩ true)
      before after ((s.expected.map Pattern.label).mergeSort (· ≤ ·)) where
  scanned := scanned
  span := rfl
  detail := by
    rw [SyntaxError.complaint, detail_eq s.expected_ne_nil, Option.map_map]
    rfl
  possible label := by
    rw [List.mem_mergeSort]
    exact Grammar.mem_labels_iff (Program.formed_before scanned) run label
  sorted := pairwise_lt_mergeSort (s.nodup_expected.map Pattern.label_injective)
  nonempty := by
    rw [← List.length_pos_iff, List.length_mergeSort, List.length_map, List.length_pos_iff]
    exact s.expected_ne_nil
  unexpected := by rwa [List.mem_mergeSort]

namespace Program

/-- A verbose complaint tells the first four of all that accepted texts can have where this one
breaks off, and always some. -/
theorem readWith_expects {text : String} {c : Complaint}
    (refused : readWith true text = .error c) :
    ∃ before after labels, Expects text c before after labels := by
  obtain ⟨e, definitions, rfl⟩ := readWith_error refused
  rw [readDefinitions] at definitions
  split at definitions
  · next s reads =>
    split at definitions
    · contradiction
    · next unfinished =>
      cases definitions
      have run := State.advance_eq_nil_iff.mp reads
      refine ⟨_, [], _, expects_of_run (List.append_nil _).symm run ?_ _⟩
      intro member
      obtain ⟨q, expected, same⟩ := List.mem_map.mp member
      -- only the end itself is shown as the end, and the program cannot end here
      have stop : q.label = Pattern.label .endOfInput := same
      obtain rfl := Pattern.label_injective stop
      have finishes := s.isSome_finish?
      rw [unfinished, List.contains_iff_mem.mpr expected] at finishes
      contradiction
  · next s t after stops =>
    cases definitions
    obtain ⟨before, scanned, run, stuck⟩ := State.advance_stops stops
    refine ⟨before, t :: after, _, expects_of_run scanned run ?_ _⟩
    intro member
    obtain ⟨q, expected, same⟩ := List.mem_map.mp member
    have steps := s.isSome_step t.token
    rw [stuck] at steps
    refine List.any_eq_false.mp steps.symm q expected (Pattern.covers_of_label_eq ?_ same)
    intro d illegal
    have inside : .illegal d ∈ (Token.scanText text).map (·.token) := by
      rw [scanned, ← illegal]
      exact List.mem_map_of_mem (List.mem_append_right before List.mem_cons_self)
    exact Token.ofChar?_of_illegal inside

/-- A lock is declared as one of two kinds. -/
theorem readWith_expects_kind :
    readWith true "def f(): letsync m;" = .error ⟨⟨18, 19⟩, ⟨1, 19⟩,
      "syntax error: unexpected ';', expecting ''mutex'' or ''rwmutex''"⟩ ∧
    ∃ before after labels, Expects "def f(): letsync m;" ⟨⟨18, 19⟩, ⟨1, 19⟩,
      "syntax error: unexpected ';', expecting ''mutex'' or ''rwmutex''"⟩ before after labels := by
  have read : readDefinitions "def f(): letsync m;" = .error
      ⟨some (.mark .semicolon), [.keyword .mutex, .keyword .rwMutex], ⟨18, 19⟩, ⟨1, 19⟩⟩ := by
    decide +kernel
  have refused : readWith true "def f(): letsync m;" = .error ⟨⟨18, 19⟩, ⟨1, 19⟩,
      "syntax error: unexpected ';', expecting ''mutex'' or ''rwmutex''"⟩ := by
    rw [readWith_of_error read, SyntaxError.complaint, SyntaxError.detail,
      SyntaxError.shownExpected, List.mergeSort_of_pairwise (by decide)]
    decide +kernel
  exact ⟨refused, readWith_expects refused⟩

end Program
end ProcessCalculus
