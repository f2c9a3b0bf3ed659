import Mathlib.Data.Multiset.AddSub
import ProcessCalculus.Proofs.CallRelation

/-!
Execution of programs. A state is a multiset of threads and a thread is what it still has to run.
Any thread may go next: its first statement gives way to what runs in its place, shows at most one
action and starts at most one thread beside it. A call of an undefined function does nothing.
-/
namespace ProcessCalculus

/-- The body of the function of that name. -/
def Program.body? (p : Program) (f : String) : Option Block := (p.function? f).map (·.body)

/-- What a statement shows, what runs in its place and the threads it starts. -/
inductive Statement.Step (p : Program) : Statement → List Action → Block → List Block → Prop where
  | tau : Step p .tau [] [] []
  | act (a : Action) : Step p (.act a) [a] [] []
  | call (f : String) (xs : List Parameter) :
      Step p (.invoke .call f xs) [] ((p.body? f).getD []) []
  | spawn (f : String) (xs : List Parameter) :
      Step p (.invoke .spawn f xs) [] [] (p.body? f).toList
  | thenBranch (c : Option String) (t e : Block) : Step p (.branch c t e) [] t []
  | elseBranch (c : Option String) (t e : Block) : Step p (.branch c t e) [] e []
  | case {b : Block} {cs : List Block} : b ∈ cs → Step p (.select cs) [] b []

namespace Program

inductive Step (p : Program) : Multiset Block → List Action → Multiset Block → Prop where
  | thread {s : Statement} {actions : List Action} {front rest : Block} {started : List Block}
      (others : Multiset Block) : s.Step p actions front started →
      Step p ((s :: rest) ::ₘ others) actions ((front ++ rest) ::ₘ (↑started + others))

inductive Run (p : Program) : Multiset Block → List Action → Multiset Block → Prop where
  | refl (state : Multiset Block) : Run p state [] state
  | next {s t u : Multiset Block} {first rest : List Action} :
      p.Step s first t → Run p t rest u → Run p s (first ++ rest) u

/-- Some run of the function alone shows these actions. -/
def Emits (p : Program) (f : String) (actions : List Action) : Prop :=
  ∃ body state, p.body? f = some body ∧ p.Run {body} actions state

variable {p : Program} {s t u : Multiset Block} {first rest : List Action}

theorem Run.single (step : p.Step s first t) : p.Run s first t := by
  have run := Run.next step (.refl t)
  rwa [List.append_nil] at run

/-- The step of a thread that is alone. -/
theorem Step.alone {u : Statement} {front : Block} {started : List Block}
    (step : u.Step p first front started) (later : Block) :
    p.Step {u :: later} first ((front ++ later) ::ₘ ↑started) := by
  have beside : p.Step ((u :: later) ::ₘ 0) first ((front ++ later) ::ₘ (↑started + 0)) :=
    .thread 0 step
  rwa [add_zero] at beside

theorem Step.of_alone {b : Block} (step : p.Step {b} first t) :
    ∃ (u : Statement) (front later : Block) (started : List Block),
      b = u :: later ∧ u.Step p first front started ∧ t = (front ++ later) ::ₘ ↑started := by
  generalize whole : ({b} : Multiset Block) = s at step
  cases step with
  | @thread u _ front later started others here =>
    obtain ⟨rfl, rfl⟩ := (Multiset.singleton_eq_cons_iff others).mp whole
    exact ⟨u, front, later, started, rfl, here, by rw [add_zero]⟩

theorem Step.frame (step : p.Step s first t) (others : Multiset Block) :
    p.Step (s + others) first (t + others) := by
  cases step with
  | thread beside here =>
    rw [Multiset.cons_add, Multiset.cons_add, add_assoc]
    exact .thread (beside + others) here

theorem Run.frame (run : p.Run s first t) (others : Multiset Block) :
    p.Run (s + others) first (t + others) := by
  induction run with
  | refl s => exact .refl _
  | next step _ ih => exact .next (step.frame others) ih

theorem Run.trans (before : p.Run s first t) (after : p.Run t rest u) :
    p.Run s (first ++ rest) u := by
  induction before with
  | refl => exact after
  | next step _ ih =>
    rw [List.append_assoc]
    exact .next step (ih after)

/-- Where each step of one program is answered by a run of the other that shows the same, so is each
run. -/
theorem Run.answered {q : Program} {related : Multiset Block → Multiset Block → Prop}
    (answer : ∀ {s s' t : Multiset Block} {actions : List Action}, related s t →
      p.Step s actions s' → ∃ t', q.Run t actions t' ∧ related s' t')
    {s' : Multiset Block} {actions : List Action} (start : related s t)
    (run : p.Run s actions s') : ∃ t', q.Run t actions t' ∧ related s' t' := by
  induction run generalizing t with
  | refl => exact ⟨t, .refl t, start⟩
  | next step _ ih =>
    obtain ⟨u, before, found⟩ := answer start step
    obtain ⟨t', after, last⟩ := ih found
    exact ⟨t', before.trans after, last⟩

theorem body?_eq_some_iff (distinct : p.names.Nodup) {f : String} {b : Block} :
    p.body? f = some b ↔ ∃ h ∈ p.functions, h.name = f ∧ h.body = b := by
  rw [body?, Option.map_eq_some_iff]
  constructor
  · rintro ⟨h, found, same⟩
    obtain ⟨member, named⟩ := (function?_eq_some_iff distinct).mp found
    exact ⟨h, member, named, same⟩
  · rintro ⟨h, member, named, same⟩
    exact ⟨h, (function?_eq_some_iff distinct).mpr ⟨member, named⟩, same⟩

end Program
end ProcessCalculus
