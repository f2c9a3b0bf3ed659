import Mathlib.Data.List.Infix
import ProcessCalculus.Proofs.History

/-!
Branches opened and ended around other work. Work inside a branch nests: it ends every branch that
it opens and no other. Such work does to any function what appending certain statements does, and
these depend on the work alone. So ending the branch around it hands out the statements that the
work builds from nothing, and the function is what it was. A function that is only edited, starting
from an empty one, never has an inaction right after an inaction.
-/
namespace ProcessCalculus

namespace Function

variable {f g : Function}

@[simp] theorem saved_push (f : Function) (s : Statement) : (f.push s).saved = f.saved := by
  rw [push]
  split <;> rfl

@[simp] theorem parameters_push (f : Function) (s : Statement) :
    (f.push s).parameters = f.parameters := by
  rw [push]
  split <;> rfl

@[simp] theorem saved_addParameter (f : Function) (x : Parameter) :
    (f.addParameter x).saved = f.saved := by
  rw [addParameter]
  split <;> rfl

@[simp] theorem body_addParameter (f : Function) (x : Parameter) :
    (f.addParameter x).body = f.body := by
  rw [addParameter]
  split <;> rfl

@[simp] theorem saved_pushAll (f : Function) (ss : Block) : (f.pushAll ss).saved = f.saved := by
  induction ss generalizing f with
  | nil => rfl
  | cons s ss ih => exact (ih _).trans (saved_push f s)

@[simp] theorem parameters_pushAll (f : Function) (ss : Block) :
    (f.pushAll ss).parameters = f.parameters := by
  induction ss generalizing f with
  | nil => rfl
  | cons s ss ih => exact (ih _).trans (parameters_push f s)

/-- What a body becomes depends on the body alone. -/
theorem body_push_congr (same : f.body = g.body) (s : Statement) :
    (f.push s).body = (g.push s).body := by
  rw [push, push, same]
  split
  · exact same
  · rfl

theorem body_pushAll_congr (same : f.body = g.body) (ss : Block) :
    (f.pushAll ss).body = (g.pushAll ss).body := by
  induction ss generalizing f g with
  | nil => exact same
  | cons s ss ih => exact ih (body_push_congr same s)

theorem pushAll_append (f : Function) (ss ts : Block) :
    f.pushAll (ss ++ ts) = (f.pushAll ss).pushAll ts := List.foldl_append

/-- The body that appending the statements builds from nothing. -/
def appended (ss : Block) : Block := ((empty "").pushAll ss).body

theorem body_pushAll_of_blank (blank : f.body = []) (ss : Block) :
    (f.pushAll ss).body = appended ss :=
  body_pushAll_congr blank ss

/-- Statements appended in a branch are handed out when it ends, and nothing else has changed. -/
theorem closeBranch_pushAll_openBranch (sound : f.Sound) (ss : Block) :
    (f.openBranch.pushAll ss).closeBranch = .ok (appended ss, f) := by
  have saved : (f.openBranch.pushAll ss).saved = f.body :: f.saved := saved_pushAll _ ss
  have built : (f.openBranch.pushAll ss).body = appended ss := body_pushAll_of_blank rfl ss
  have back : { (f.openBranch.pushAll ss).withBody f.body with saved := f.saved } = f := by
    simp only [withBody, name_pushAll, parameters_pushAll, ← sound.flag]
    rfl
  rw [closeBranch, saved]
  simp only [back, built]

/-! Functions that arise. -/

/-- The functions that edits and the removal of undefined calls lead to. -/
inductive Arises : Function → Prop where
  | empty (name : String) : Arises (.empty name)
  | ofBody (name : String) (xs : List Parameter) (b : Block) : Arises (.ofBody name xs b)
  | edit {f : Function} (e : Edit) : Arises f → Arises (f.edit e)
  | prune {f : Function} (defined : String → Bool) : Arises f →
      Arises (f.withBody (Block.prune defined f.body))

theorem Arises.sound (arises : f.Arises) : f.Sound := by
  induction arises with
  | empty name => exact .empty name
  | ofBody name xs b => exact .ofBody name xs b
  | edit e _ ih => exact ih.edit e
  | prune defined _ ih => exact ih.withBody _

theorem Authored.arises (authored : f.Authored) : f.Arises := by
  induction authored with
  | empty name => exact .empty name
  | ofBody name xs b => exact .ofBody name xs b
  | edit e _ ih => exact .edit e ih

end Function

namespace Program

theorem mem_functions_modify {p : Program} {name : String} {change : Function → Function}
    {g : Function} (member : g ∈ (p.modify name change).functions) :
    g ∈ p.functions ∨ ∃ f ∈ p.functions, g = change f := by
  rw [modify] at member
  split at member
  · exact .inl member
  · next i found =>
    obtain ⟨within, -⟩ := List.findIdx?_eq_some_iff_getElem.mp found
    obtain ⟨before, f, after, split, -, changed⟩ := List.exists_of_modify change within
    rw [changed] at member
    rw [split]
    rcases List.mem_append.mp member with member | member
    · exact .inl (List.mem_append_left _ member)
    · rcases List.mem_cons.mp member with rfl | member
      · exact .inr ⟨f, List.mem_append_right _ List.mem_cons_self, rfl⟩
      · exact .inl (List.mem_append_right _ (List.mem_cons_of_mem f member))

/-- Every function of every program arises, whatever happened to the program. -/
theorem History.arises {log : List String} {p : Program} (history : History log p) :
    ∀ f ∈ p.functions, f.Arises := by
  have pruned : ∀ q : Program, (∀ f ∈ q.functions, f.Arises) →
      ∀ f ∈ q.dropUndefined.functions, f.Arises := by
    intro q arise f member
    obtain ⟨g, inside, rfl⟩ := List.mem_map.mp member
    exact .prune _ (arise g inside)
  have thinned : ∀ (q : Program) (places : BitSet), (∀ f ∈ q.functions, f.Arises) →
      ∀ f ∈ (q.without places).functions, f.Arises := fun q places arise f member =>
    arise f ((q.sublist_functions_without places).subset member)
  induction history with
  | empty => simp [Program.empty]
  | read _ =>
    intro f member
    obtain ⟨d, -, rfl⟩ := mem_functions_ofDefinitions member
    exact .ofBody _ _ _
  | add authored _ ih =>
    intro g member
    rcases mem_functions_add member with before | rfl
    · exact ih g before
    · exact authored.arises
  | edit name e _ ih =>
    intro g member
    rcases mem_functions_modify member with before | ⟨f, before, rfl⟩
    · exact ih g before
    · exact .edit e (ih f before)
  | dropSilent policy state _ ih => exact thinned _ _ ih
  | dropUncalled entry _ ih => exact thinned _ _ ih
  | dropUndefined _ ih => exact pruned _ ih
  | @shrink _ p _ ih =>
    rw [Program.shrink]
    split
    · exact pruned _ (thinned _ _ (thinned _ _ ih))
    · exact pruned _ (thinned _ _ ih)

end Program

namespace Function

variable {f g : Function}

/-! Work inside a branch. -/

/-- One operation of some work. The statements to append may be built from the branches that have
ended so far, the first one first. -/
inductive Move
  | append (build : List Block → Block)
  | openBranch
  | closeBranch

/-- A function and the branches that have ended while it was worked on. -/
structure Draft where
  function : Function
  ended : List Block
deriving DecidableEq

def Draft.step (d : Draft) : Move → Except LookupError Draft
  | .append build => .ok { d with function := d.function.pushAll (build d.ended) }
  | .openBranch => .ok { d with function := d.function.openBranch }
  | .closeBranch => do
    let (branch, function) ← d.function.closeBranch
    return ⟨function, d.ended ++ [branch]⟩

def Draft.run (d : Draft) (work : List Move) : Except LookupError Draft := work.foldlM Draft.step d

/-- Work that ends every branch that it opens and no other. -/
inductive Nested : List Move → Prop where
  | nil : Nested []
  | append {rest : List Move} (build : List Block → Block) : Nested rest →
      Nested (.append build :: rest)
  | branch {inner rest : List Move} : Nested inner → Nested rest →
      Nested (.openBranch :: inner ++ .closeBranch :: rest)

theorem Draft.run_append (d : Draft) (first second : List Move) :
    d.run (first ++ second) = d.run first >>= fun e => e.run second := List.foldlM_append

/-- Work in a branch that does what appending some statements does, and the end of the branch. -/
theorem run_branch (sound : f.Sound) {inner : List Move} {past more : List Block} {ss : Block}
    (appends : Draft.run ⟨f.openBranch, past⟩ inner =
      .ok ⟨f.openBranch.pushAll ss, past ++ more⟩) :
    Draft.run ⟨f, past⟩ (.openBranch :: inner ++ [.closeBranch]) =
      .ok ⟨f, past ++ more ++ [appended ss]⟩ := by
  have closed : Draft.run ⟨f.openBranch.pushAll ss, past ++ more⟩ [.closeBranch] =
      .ok ⟨f, past ++ more ++ [appended ss]⟩ := by
    simp only [Draft.run, List.foldlM_cons, List.foldlM_nil, Draft.step,
      closeBranch_pushAll_openBranch sound]
    rfl
  calc Draft.run ⟨f, past⟩ (.openBranch :: inner ++ [.closeBranch])
    _ = Draft.run ⟨f.openBranch, past⟩ (inner ++ [.closeBranch]) := rfl
    _ = _ := by rw [Draft.run_append, appends]; exact closed

/-- Nested work does what appending some statements does, the same to every function. -/
theorem Nested.appends {work : List Move} (nested : Nested work) (past : List Block) :
    ∃ ss more, ∀ f : Function, f.Sound →
      Draft.run ⟨f, past⟩ work = .ok ⟨f.pushAll ss, past ++ more⟩ := by
  induction nested generalizing past with
  | nil => exact ⟨[], [], fun f _ => by rw [List.append_nil]; rfl⟩
  | @append rest build _ ih =>
    obtain ⟨ss, more, after⟩ := ih past
    refine ⟨build past ++ ss, more, fun f sound => ?_⟩
    rw [pushAll_append]
    exact after (f.pushAll (build past)) (sound.pushAll (build past))
  | @branch inner rest _ _ inside after =>
    obtain ⟨ss, more, inside⟩ := inside past
    obtain ⟨ts, later, after⟩ := after (past ++ more ++ [appended ss])
    refine ⟨ts, more ++ [appended ss] ++ later, fun f sound => ?_⟩
    have branch := run_branch sound (inside f.openBranch sound.openBranch)
    rw [List.append_cons, Draft.run_append, branch, ← List.append_assoc, ← List.append_assoc]
    exact after f sound

/-! Inactions. -/

/-- An inaction stands right after an inaction, at the top level of the block. -/
def Stutters (b : Block) : Prop := [.tau, .tau] <:+: b

theorem stutters_concat {b : Block} {s : Statement} (stutters : Stutters (b ++ [s])) :
    Stutters b ∨ s = .tau ∧ b.getLast? = some .tau := by
  rcases List.infix_concat_iff.mp stutters with atEnd | before
  · right
    obtain ⟨front, same⟩ := atEnd
    have split : b ++ [s] = (front ++ [.tau]) ++ [.tau] := by rw [← same, List.append_assoc]; rfl
    obtain ⟨rfl, last⟩ := List.append_inj' split rfl
    exact ⟨List.singleton_inj.mp last, List.getLast?_concat⟩
  · exact .inl before

/-- The functions that edits of an empty one lead to. -/
inductive Drafted : Function → Prop where
  | empty (name : String) : Drafted (.empty name)
  | edit {f : Function} (e : Edit) : Drafted f → Drafted (f.edit e)

/-- Neither the body nor a body set aside stutters. -/
def Calm (f : Function) : Prop := ∀ b ∈ f.body :: f.saved, ¬ Stutters b

namespace Calm

theorem empty (name : String) : (Function.empty name).Calm := by
  intro b member
  obtain rfl := List.mem_singleton.mp member
  exact fun stutters => absurd (List.infix_nil.mp stutters) (List.cons_ne_nil _ _)

theorem push (calm : f.Calm) (s : Statement) : (f.push s).Calm := by
  rw [Function.push]
  split
  · exact calm
  · next other =>
    obtain ⟨body, saved⟩ := List.forall_mem_cons.mp calm
    refine List.forall_mem_cons.mpr ⟨fun stutters => ?_, saved⟩
    exact (stutters_concat stutters).elim body other

theorem pushAll (calm : f.Calm) (ss : Block) : (f.pushAll ss).Calm := by
  induction ss generalizing f with
  | nil => exact calm
  | cons s ss ih => exact ih (calm.push s)

theorem addParameters (calm : f.Calm) (xs : List Parameter) : (f.addParameters xs).Calm := by
  induction xs generalizing f with
  | nil => exact calm
  | cons x xs ih =>
    apply ih
    rw [Calm, body_addParameter, saved_addParameter]
    exact calm

theorem openBranch (calm : f.Calm) : f.openBranch.Calm :=
  List.forall_mem_cons.mpr ⟨(empty "" _ List.mem_cons_self), calm⟩

theorem closeBranch (calm : f.Calm) {b : Block} (closed : f.closeBranch = .ok (b, g)) :
    g.Calm := by
  rw [Function.closeBranch] at closed
  split at closed
  · contradiction
  · next saved =>
    cases closed
    rw [Calm, saved] at calm
    exact (List.forall_mem_cons.mp calm).2

theorem edit (calm : f.Calm) (e : Edit) : (f.edit e).Calm := by
  cases e with
  | addParameters xs => exact calm.addParameters xs
  | pushAll ss => exact calm.pushAll ss
  | openBranch => exact calm.openBranch
  | closeBranch =>
    rw [Function.edit]
    split
    · next closed => exact calm.closeBranch closed
    · exact calm

end Calm

theorem Drafted.calm (drafted : f.Drafted) : f.Calm := by
  induction drafted with
  | empty name => exact .empty name
  | edit e _ ih => exact ih.edit e

theorem closeBranch_eq_error_iff :
    f.closeBranch = .error (.nothingSaved f.name) ↔ f.saved = [] := by
  rw [closeBranch]
  cases f.saved <;> simp

/-- Opening a branch and ending it after nested work hands out what the work builds in any function
with an empty body, and leaves the function as it was. Without an open branch there is none to end,
and nothing changes. Edits of an empty function put no inaction right after another, in no body. -/
theorem branches_bracket :
    (∀ (f g : Function) (work : List Move) (past : List Block), f.Arises → g.Arises →
      g.body = [] → Nested work → ∃ built more,
        Draft.run ⟨g, past⟩ work = .ok ⟨built, past ++ more⟩ ∧
        Draft.run ⟨f, past⟩ (.openBranch :: work ++ [.closeBranch]) =
          .ok ⟨f, past ++ more ++ [built.body]⟩) ∧
    (∀ f : Function, f.saved = [] →
      f.closeBranch = .error (.nothingSaved f.name) ∧ f.edit .closeBranch = f) ∧
    ∀ f : Function, f.Drafted → ∀ b ∈ f.body :: f.saved, ¬ [.tau, .tau] <:+: b := by
  refine ⟨fun f g work past arises clear blank nested => ?_, fun f none => ?_,
    fun f drafted => drafted.calm⟩
  · obtain ⟨ss, more, appends⟩ := nested.appends past
    refine ⟨g.pushAll ss, more, appends g clear.sound, ?_⟩
    rw [body_pushAll_of_blank blank]
    exact run_branch arises.sound (appends f.openBranch arises.sound.openBranch)
  · have refused := closeBranch_eq_error_iff.mpr none
    rw [edit, refused]
    exact ⟨rfl, rfl⟩

/-- A function that lost a call and then had a branch opened, in which work has begun. -/
def porter : Function :=
  let whole := ofBody "porter" [.shared "x"]
    [.act (.perform .send "x"), .invoke .call "gone" [.shared "x"], .tau]
  ((whole.withBody (Block.prune (· = "here") whole.body)).edit .openBranch).edit
    (.pushAll [.tau, .tau])

/-- An edited function with a branch open and inactions on both sides of its start. -/
def pausing : Function :=
  (((empty "pausing").edit (.pushAll [.tau, .tau])).edit .openBranch).edit
    (.pushAll [.tau, .tau, .act (.perform .send "x"), .tau])

/-- A branch in a branch; conditionals are made of the branches that have ended. -/
def errands : List Move :=
  [.append fun _ => [.tau, .act (.perform .receive "y")],
    .openBranch,
    .append fun _ => [.tau, .tau],
    .openBranch,
    .append fun _ => [.act (.perform .lock "m"), .tau],
    .closeBranch,
    .append fun past => [.branch none (past.getLastD []) [.tau]],
    .closeBranch,
    .append fun past => past.map fun b => .branch none b [.tau]]

theorem arises_porter : porter.Arises := by
  rw [porter]
  exact .edit _ (.edit _ (.prune _ (.ofBody _ _ _)))

theorem nested_errands : Nested errands :=
  .append _ (.branch (.append _ (.branch (.append _ .nil) (.append _ .nil))) (.append _ .nil))

theorem branches_bracket_porter :
    (porter.Arises ∧ Nested errands ∧ ∃ built more,
      Draft.run ⟨empty "bag", []⟩ errands = .ok ⟨built, [] ++ more⟩ ∧
      Draft.run ⟨porter, []⟩ (.openBranch :: errands ++ [.closeBranch]) =
        .ok ⟨porter, [] ++ more ++ [built.body]⟩) ∧
    ((empty "bag").saved = [] ∧ (empty "bag").closeBranch = .error (.nothingSaved "bag") ∧
      (empty "bag").edit .closeBranch = empty "bag") ∧
    pausing.Drafted ∧ ∀ b ∈ pausing.body :: pausing.saved, ¬ [.tau, .tau] <:+: b := by
  have drafted : pausing.Drafted := .edit _ (.edit _ (.edit _ (.empty _)))
  obtain ⟨brackets, refuses, spaced⟩ := branches_bracket
  exact ⟨⟨arises_porter, nested_errands, brackets porter (empty "bag") errands [] arises_porter
      (.empty "bag") rfl nested_errands⟩,
    ⟨rfl, refuses (empty "bag") rfl⟩, drafted, spaced pausing drafted⟩

example : Draft.run ⟨porter, []⟩ (.openBranch :: errands ++ [.closeBranch]) = .ok ⟨porter,
    let inner : Block := [.act (.perform .lock "m"), .tau]
    let outer : Block := [.tau, .branch none inner [.tau]]
    [inner, outer, [.tau, .act (.perform .receive "y"), .branch none inner [.tau],
      .branch none outer [.tau]]]⟩ := by
  decide

end Function
end ProcessCalculus
