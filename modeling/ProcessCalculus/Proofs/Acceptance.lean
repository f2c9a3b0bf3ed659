import ProcessCalculus.Grammar.State
import ProcessCalculus.Proofs.Derivation

/-!
The machine accepts every derivation. Whatever surrounds a block, the tokens of a statement lead
from the block to the same block with the statement read: the tokens that may follow a statement
start none, so reading on is never a mistake.
-/
namespace ProcessCalculus.Grammar

namespace State

/-- Reads all the tokens, none where one of them cannot come next. -/
def run (s : State) (ts : List Token) : Option State := ts.foldlM step s

variable {s t u : State} {ts us : List Token}

@[simp] theorem run_nil (s : State) : s.run [] = some s := rfl

theorem run_cons (s : State) (t : Token) (ts : List Token) :
    s.run (t :: ts) = (s.step t).bind fun next => next.run ts := List.foldlM_cons

theorem run_append (s : State) (ts us : List Token) :
    s.run (ts ++ us) = (s.run ts).bind fun next => next.run us := List.foldlM_append

theorem run_step {k : Token} (step : s.step k = some t) (rest : t.run ts = some u) :
    s.run (k :: ts) = some u := by
  rw [run_cons, step]
  exact rest

theorem run_trans (first : s.run ts = some t) (rest : t.run us = some u) :
    s.run (ts ++ us) = some u := by
  rw [run_append, first]
  exact rest

theorem advance_eq_nil_iff {α : Type} {token : α → Token} {items : List α} :
    s.advance token items = (t, []) ↔ s.run (items.map token) = some t := by
  induction items generalizing s with
  | nil => simp [advance]
  | cons k items ih =>
    rw [advance, List.map_cons, run_cons]
    cases next : s.step (token k) with
    | none => simp
    | some s' => exact ih

end State

/-! Lists of names occur in two places; in both the surrounding state follows the list. -/

/-- States that hold a list of names and follow it, up to what its end makes of the names. -/
def Holds (inside : NameList → State) (after : List String → State) : Prop :=
  ∀ list t, (inside list).step t = (list.step t).map (Sum.elim inside after)

theorem holds_formals (before : List Definition) (f : String) :
    Holds (.formals before f) (.colon before f) := by
  intro list t
  rw [State.step]
  rcases list.step t with _ | _ | _ <;> rfl

theorem holds_arguments (context : Context) (read : List Statement) (m : Transfer) (f : String) :
    Holds (fun list => .clause context read (.arguments m f list))
      (fun xs => .clause context read (.complete (.invoke m f (xs.map Parameter.shared)))) := by
  intro list t
  have step : (State.clause context read (.arguments m f list)).step t =
      ((Clause.arguments m f list).step t).map (.clause context read) := by
    cases t <;> rfl
  rw [step, Clause.step]
  rcases list.step t with _ | _ | _ <;> rfl

section Names

variable {inside : NameList → State} {after : List String → State} (holds : Holds inside after)
include holds

theorem run_names (xs : NameTree) :
    (inside .first).run xs.tokens = some (inside (.afterName xs.names.reverse)) := by
  induction xs with
  | one x => exact State.run_step (holds _ _) rfl
  | more before x ih =>
    have comma := holds (.afterName before.names.reverse) (.mark .comma)
    have name := holds (.afterComma before.names.reverse) (.identifier x)
    rw [NameTree.tokens, NameTree.names, List.reverse_append]
    exact State.run_trans ih (State.run_step comma (State.run_step name rfl))

theorem run_parameters (xs : ParameterTree) :
    (inside .opening).run xs.tokens = some (after xs.names) := by
  have closing : ∀ xs : List String, (inside (.afterName xs)).step (.mark .closing) =
      some (after xs.reverse) := fun xs => holds _ _
  cases xs with
  | none => exact State.run_step (holds _ _) (State.run_step (holds _ _) rfl)
  | some xs =>
    refine State.run_step (holds _ _) (State.run_trans (run_names holds xs) ?_)
    refine State.run_step (closing _) ?_
    rw [List.reverse_reverse]
    rfl

end Names

/-! Statements, blocks and cases. -/

variable {context : Context} {read : List Statement}

theorem run_action (a : Action) : (State.block context read).run a.tokens =
    some (.clause context read (.complete (.act a))) := by
  cases a with
  | newChannel x label n => rfl
  | perform o x => cases o <;> rfl

/-- A keyword that starts no statement ends a block that has statements. -/
theorem step_leave {k : Keyword} {block : Block} (nonempty : block ≠ [])
    (ends : ∀ (context : Context) (read : List Statement),
      context.turn? read k = if read = [] then none else context.leave? read.reverse k) :
    (State.block context block.reverse).step (.keyword k) = context.leave? block k := by
  have some : block.reverse ≠ [] := by simpa using nonempty
  rw [State.step, ends, if_neg some, List.reverse_reverse]

mutual

theorem run_statement : ∀ (s : StatementTree) (context : Context) (read : List Statement),
    (State.block context read).run s.tokens =
      some (.clause context read (.complete s.statement))
  | .tau, _, _ => rfl
  | .act a, _, _ => by
    rw [StatementTree.tokens, StatementTree.statement]
    exact run_action a
  | .invoke m f xs, context, read => by
    have word : (State.block context read).step (.keyword m.word) =
        some (.clause context read (.callee m)) := by
      cases m <;> rfl
    rw [StatementTree.tokens, StatementTree.statement]
    exact State.run_step word
      (State.run_step rfl (run_parameters (holds_arguments context read m f) xs))
  | .branch t e, context, read => by
    have thenBlock := run_block t (.thenBranch context read) []
    have elseBlock := run_block e (.elseBranch context read t.block) []
    rw [List.append_nil] at thenBlock elseBlock
    rw [StatementTree.tokens, StatementTree.statement, List.append_assoc]
    refine State.run_step rfl (State.run_trans thenBlock ?_)
    refine State.run_step (step_leave t.block_ne_nil fun _ _ => rfl) ?_
    refine State.run_trans elseBlock ?_
    exact State.run_step (step_leave e.block_ne_nil fun _ _ => rfl) rfl
  | .select cs, context, read => by
    obtain ⟨state, reached, -, ended⟩ := run_cases cs context read
    rw [StatementTree.tokens, StatementTree.statement]
    refine State.run_step rfl (State.run_trans reached ?_)
    exact State.run_step ended rfl

theorem run_block : ∀ (b : BlockTree) (context : Context) (read : List Statement),
    (State.block context read).run b.tokens = some (.block context (b.block.reverse ++ read))
  | .one s, context, read => by
    rw [BlockTree.tokens, BlockTree.block]
    exact State.run_trans (run_statement s context read) rfl
  | .more before s, context, read => by
    rw [BlockTree.tokens, BlockTree.block, List.reverse_append]
    refine State.run_trans (run_block before context read) ?_
    exact State.run_trans (run_statement s context _) rfl

/-- After some cases another may start, or the choice may end. -/
theorem run_cases : ∀ (cs : CaseTree) (context : Context) (read : List Statement),
    ∃ state, (State.cases context read).run cs.tokens = some state ∧
      state.step (.keyword .case) = some (.block (.case context read cs.blocks.reverse) []) ∧
      state.step (.keyword .endSelect) =
        some (.clause context read (.complete (.select cs.blocks)))
  | .none, context, read => ⟨.cases context read, rfl, rfl, rfl⟩
  | .more before b, context, read => by
    obtain ⟨state, reached, next, -⟩ := run_cases before context read
    have block := run_block b (.case context read before.blocks.reverse) []
    rw [List.append_nil] at block
    refine ⟨_, State.run_trans reached (State.run_step next block), ?_, ?_⟩
    · rw [step_leave b.block_ne_nil fun _ _ => rfl, CaseTree.blocks, List.reverse_append]
      rfl
    · rw [step_leave b.block_ne_nil fun _ _ => rfl, CaseTree.blocks]
      simp [Context.leave?]

end

theorem run_definition (d : DefinitionTree) {state : State} {before : List Definition}
    (step : state.step (.keyword .define) = some (.name before)) :
    state.run d.tokens = some (.block (.body before d.name d.parameters.names)
      d.body.block.reverse) := by
  have body := run_block d.body (.body before d.name d.parameters.names) []
  rw [List.append_nil] at body
  rw [DefinitionTree.tokens]
  have parameters := run_parameters (holds_formals before d.name) d.parameters
  refine State.run_step step (State.run_step rfl (State.run_trans parameters ?_))
  exact State.run_step rfl body

/-- After some definitions another may start, or the program may end. -/
theorem run_program (p : ProgramTree) : ∃ state, State.start.run p.tokens = some state ∧
    state.step (.keyword .define) = some (.name p.definitions.reverse) ∧
    state.finish? = some p.definitions := by
  have ready : ∀ (before : List Definition) (d : DefinitionTree),
      (State.block (.body before d.name d.parameters.names) d.body.block.reverse).step
        (.keyword .define) = some (.name (d.definition :: before)) ∧
      (State.block (.body before d.name d.parameters.names) d.body.block.reverse).finish? =
        some (d.definition :: before).reverse := by
    intro before d
    refine ⟨step_leave d.body.block_ne_nil fun _ _ => rfl, ?_⟩
    obtain ⟨s, rest, split⟩ := List.exists_cons_of_ne_nil
      (List.reverse_ne_nil_iff.mpr d.body.block_ne_nil)
    rw [split, State.finish?, ← split, List.reverse_reverse]
    rfl
  induction p with
  | one d =>
    exact ⟨_, run_definition d rfl, (ready [] d).1, (ready [] d).2⟩
  | more before d ih =>
    obtain ⟨state, reached, next, -⟩ := ih
    refine ⟨_, State.run_trans reached (run_definition d next), ?_, ?_⟩
    · rw [(ready _ d).1, ProgramTree.definitions, List.reverse_append]
      rfl
    · rw [(ready _ d).2, ProgramTree.definitions, List.reverse_cons, List.reverse_reverse]

/-- The machine reads the same definitions from the same tokens, and they determine the tree. -/
theorem tokens_inj {p q : ProgramTree} (same : p.tokens = q.tokens) : p = q := by
  obtain ⟨state, reached, -, finished⟩ := run_program p
  obtain ⟨state', reached', -, finished'⟩ := run_program q
  rw [same, reached'] at reached
  obtain rfl := Option.some.inj reached
  exact ProgramTree.definitions_inj (Option.some.inj (finished.symm.trans finished'))

end ProcessCalculus.Grammar
