import Mathlib.Data.List.Dedup
import ProcessCalculus.Proofs.CallRelation
import ProcessCalculus.Proofs.Reading
import ProcessCalculus.Shrink

/-!
Programs and what has happened to them. A program starts empty or from a text; then functions are
declared, edited while their branches are open or not, and removed by the passes, in any order.
Whatever the order, names stay distinct, the flag of each function tells whether its present body
communicates, and the functions that are left stand as they were declared.
-/
namespace ProcessCalculus

namespace Function

/-- The ways to go on with a function. -/
inductive Edit
  | addParameters (parameters : List Parameter)
  | pushAll (statements : Block)
  | openBranch
  | closeBranch

/-- The function after an edit. Ending a branch where none is open leaves it as it is. -/
def edit (f : Function) : Edit → Function
  | .addParameters ps => f.addParameters ps
  | .pushAll ss => f.pushAll ss
  | .openBranch => f.openBranch
  | .closeBranch =>
    match f.closeBranch with
    | .ok (_, g) => g
    | .error _ => f

/-- The functions that edits lead to. -/
inductive Authored : Function → Prop where
  | empty (name : String) : Authored (.empty name)
  | ofBody (name : String) (ps : List Parameter) (b : Block) : Authored (.ofBody name ps b)
  | edit {f : Function} (e : Edit) : Authored f → Authored (f.edit e)

/-- The flag of the function tells about its body, and no formal name is taken twice. -/
structure Sound (f : Function) : Prop where
  flag : f.communicates = Block.communicates f.body
  formals : (Parameter.formals f.parameters).Nodup

variable {f g : Function}

theorem parameter_eq_ok_iff (distinct : (Parameter.formals f.parameters).Nodup) {formal : String}
    {x : Parameter} : f.parameter formal = .ok x ↔ x ∈ f.parameters ∧ x.formal = formal := by
  rw [parameter, ← Program.find?_key_eq_some_iff distinct]
  cases f.parameters.find? fun y => y.formal = formal with
  | none => simp
  | some y => simp

namespace Sound

theorem empty (name : String) : (Function.empty name).Sound := ⟨rfl, List.nodup_nil⟩

theorem withBody (sound : f.Sound) (b : Block) : (f.withBody b).Sound := ⟨rfl, sound.formals⟩

theorem addParameter (sound : f.Sound) (x : Parameter) : (f.addParameter x).Sound := by
  rw [Function.addParameter]
  split
  · exact sound
  · next fresh =>
    refine ⟨sound.flag, ?_⟩
    rw [Parameter.formals, List.map_append, List.map_singleton, ← List.concat_eq_append]
    exact sound.formals.concat fresh

theorem addParameters (sound : f.Sound) (xs : List Parameter) : (f.addParameters xs).Sound := by
  induction xs generalizing f with
  | nil => exact sound
  | cons x xs ih => exact ih (sound.addParameter x)

theorem ofBody (name : String) (xs : List Parameter) (b : Block) :
    (Function.ofBody name xs b).Sound :=
  ((empty name).addParameters xs).withBody b

theorem push (sound : f.Sound) (s : Statement) : (f.push s).Sound := by
  rw [Function.push]
  split
  · exact sound
  · refine ⟨?_, sound.formals⟩
    rw [Block.communicates_append, Block.communicates_singleton, sound.flag]

theorem pushAll (sound : f.Sound) (ss : Block) : (f.pushAll ss).Sound := by
  induction ss generalizing f with
  | nil => exact sound
  | cons s ss ih => exact ih (sound.push s)

theorem openBranch (sound : f.Sound) : f.openBranch.Sound := ⟨rfl, sound.formals⟩

theorem closeBranch (sound : f.Sound) {b : Block} (closed : f.closeBranch = .ok (b, g)) :
    g.Sound := by
  rw [Function.closeBranch] at closed
  split at closed
  · contradiction
  · cases closed
    exact ⟨rfl, sound.formals⟩

theorem edit (sound : f.Sound) (e : Edit) : (f.edit e).Sound := by
  cases e with
  | addParameters xs => exact sound.addParameters xs
  | pushAll ss => exact sound.pushAll ss
  | openBranch => exact sound.openBranch
  | closeBranch =>
    rw [Function.edit]
    split
    · next closed => exact sound.closeBranch closed
    · exact sound

end Sound

theorem Authored.sound (authored : f.Authored) : f.Sound := by
  induction authored with
  | empty name => exact .empty name
  | ofBody name xs b => exact .ofBody name xs b
  | edit e _ ih => exact ih.edit e

@[simp] theorem name_edit (f : Function) (e : Edit) : (f.edit e).name = f.name := by
  cases e with
  | addParameters xs => exact name_addParameters f xs
  | pushAll ss => exact name_pushAll f ss
  | openBranch => rfl
  | closeBranch =>
    rw [edit, closeBranch]
    cases f.saved with
    | nil => rfl
    | cons b saved => rfl

end Function

namespace Program

variable {p q : Program} {log : List String}

/-- The programs that the operations lead to, each with the names in the order in which they were
declared. A refused declaration is none; a function that went may be declared again. -/
inductive History : List String → Program → Prop where
  | empty : History [] .empty
  | read {text : String} {ds : List Definition} : readDefinitions text = .ok ds →
      History (ds.map Definition.name).eraseDups (ofDefinitions ds)
  | add {log : List String} {p : Program} {f : Function} : f.Authored → History log p →
      History (if p.contains f.name then log else log ++ [f.name]) (p.add f)
  | edit {log : List String} {p : Program} (name : String) (e : Function.Edit) : History log p →
      History log (p.modify name (·.edit e))
  | dropSilent {log : List String} {p : Program} {σ : Type} (policy : Function → StateM σ Bool)
      (state : σ) : History log p → History log (Id.run ((p.dropSilent policy).run state)).1.2
  | dropUncalled {log : List String} {p : Program} (entry : String) : History log p →
      History log (p.dropUncalled entry)
  | dropUndefined {log : List String} {p : Program} : History log p → History log p.dropUndefined
  | shrink {log : List String} {p : Program} : History log p → History log p.shrink

/-- What the operations keep. Each name counts where it was declared last. -/
structure Orderly (log : List String) (p : Program) : Prop where
  distinct : p.names.Nodup
  functions : ∀ f ∈ p.functions, f.Sound
  order : p.names.Sublist log.dedup

theorem dedup_concat (log : List String) (name : String) :
    (log ++ [name]).dedup = log.dedup.filter (· ≠ name) ++ [name] := by
  induction log with
  | nil => simp
  | cons first log ih =>
    rw [List.cons_append]
    by_cases same : first = name
    · subst same
      rw [List.dedup_cons_of_mem (by simp), ih]
      by_cases again : first ∈ log
      · rw [List.dedup_cons_of_mem again]
      · rw [List.dedup_cons_of_notMem again, List.filter_cons_of_neg (by simp)]
    · by_cases again : first ∈ log
      · rw [List.dedup_cons_of_mem (by simp [again]), ih, List.dedup_cons_of_mem again]
      · rw [List.dedup_cons_of_notMem (by simp [again, same]), ih,
          List.dedup_cons_of_notMem again, List.filter_cons_of_pos (by simpa using same),
          List.cons_append]

namespace Orderly

theorem thin (orderly : Orderly log p) (fewer : q.names.Sublist p.names)
    (sound : ∀ f ∈ q.functions, f.Sound) : Orderly log q :=
  ⟨orderly.distinct.sublist fewer, sound, fewer.trans orderly.order⟩

theorem without (orderly : Orderly log p) (places : BitSet) : Orderly log (p.without places) := by
  have fewer := p.sublist_functions_without places
  exact orderly.thin (fewer.map _) fun f member => orderly.functions f (fewer.subset member)

theorem dropUndefined (orderly : Orderly log p) : Orderly log p.dropUndefined := by
  refine orderly.thin (by rw [names_dropUndefined]) fun f member => ?_
  obtain ⟨g, inside, rfl⟩ := List.mem_map.mp member
  exact (orderly.functions g inside).withBody _

theorem shrink (orderly : Orderly log p) : Orderly log p.shrink := by
  rw [Program.shrink]
  split
  · exact ((orderly.without _).without _).dropUndefined
  · exact (orderly.without _).dropUndefined

theorem add (orderly : Orderly log p) {f : Function} (sound : f.Sound) :
    Orderly (if p.contains f.name then log else log ++ [f.name]) (p.add f) := by
  refine ⟨nodup_names_add orderly.distinct f, ?_, ?_⟩
  · intro g member
    rcases mem_functions_add member with before | rfl
    · exact orderly.functions g before
    · exact sound
  · have taken := p.contains_iff f.name
    rw [names_add]
    by_cases member : f.name ∈ p.names
    · rw [if_pos member, if_pos (taken.mpr member)]
      exact orderly.order
    · -- an earlier declaration of the name is out of date, and no name left is this one
      have others : p.names.filter (· ≠ f.name) = p.names := by
        apply List.filter_eq_self.mpr
        intro g inside
        exact decide_eq_true fun same => member (same ▸ inside)
      rw [if_neg member, if_neg (mt taken.mp member), dedup_concat, ← others]
      exact (orderly.order.filter _).append_right _

theorem modify (orderly : Orderly log p) (name : String) {change : Function → Function}
    (named : ∀ f, (change f).name = f.name) (sound : ∀ f, f.Sound → (change f).Sound) :
    Orderly log (p.modify name change) := by
  rw [Program.modify]
  split
  · exact orderly
  · next i found =>
    obtain ⟨within, -⟩ := List.findIdx?_eq_some_iff_getElem.mp found
    obtain ⟨before, f, after, split, -, changed⟩ := List.exists_of_modify change within
    have functions := orderly.functions
    rw [split] at functions
    refine orderly.thin ?_ fun g member => ?_
    · rw [names, names, changed, split]
      simp [named]
    · rw [changed] at member
      rcases List.mem_append.mp member with member | member
      · exact functions g (List.mem_append_left _ member)
      · rcases List.mem_cons.mp member with rfl | member
        · exact sound f (functions f (List.mem_append_right _ List.mem_cons_self))
        · exact functions g (List.mem_append_right _ (List.mem_cons_of_mem f member))

theorem ofDefinitions (ds : List Definition) :
    Orderly (ds.map Definition.name).eraseDups (Program.ofDefinitions ds) := by
  have distinct := nodup_names_ofDefinitions ds
  refine ⟨distinct, fun f member => ?_, ?_⟩
  · obtain ⟨d, -, rfl⟩ := mem_functions_ofDefinitions member
    exact .ofBody _ _ _
  · rw [← names_ofDefinitions, distinct.dedup]

end Orderly

theorem History.orderly (history : History log p) : Orderly log p := by
  induction history with
  | empty => exact ⟨List.nodup_nil, fun _ member => absurd member List.not_mem_nil, .refl _⟩
  | read _ => exact .ofDefinitions _
  | add authored _ ih => exact ih.add authored.sound
  | edit name e _ ih =>
    exact ih.modify name (fun f => Function.name_edit f e) fun f sound => sound.edit e
  | dropSilent policy state _ ih => exact ih.without _
  | dropUncalled entry _ ih => exact ih.without _
  | dropUndefined _ ih => exact ih.dropUndefined
  | shrink _ ih => exact ih.shrink

/-- Whatever happened to a program, its names are distinct and looking for one finds its function,
each function's flag tells about its present body, no formal name is taken twice and looking for
one finds its parameter, and the functions stand in the order in which they were declared. -/
theorem history_keeps (history : History log p) :
    p.names.Nodup ∧
    (∀ name i, p.position? name = some i ↔ ∃ f, p.functions[i]? = some f ∧ f.name = name) ∧
    (∀ name f, p.function? name = some f ↔ f ∈ p.functions ∧ f.name = name) ∧
    (∀ f ∈ p.functions, f.communicates = Block.communicates f.body ∧
      (Parameter.formals f.parameters).Nodup ∧
      ∀ formal x, f.parameter formal = .ok x ↔ x ∈ f.parameters ∧ x.formal = formal) ∧
    p.names.Sublist log.dedup := by
  obtain ⟨distinct, functions, order⟩ := history.orderly
  refine ⟨distinct, fun _ _ => position?_eq_some_iff distinct,
    fun _ _ => function?_eq_some_iff distinct, fun f member => ?_, order⟩
  obtain ⟨flag, formals⟩ := functions f member
  exact ⟨flag, formals, fun _ _ => Function.parameter_eq_ok_iff formals⟩

/-- Gives up the first function that it is asked about and no other. -/
def giveUpFirst (_ : Function) : StateM Bool Bool := do
  let spent ← get
  set true
  return !spent

/-- The function named idle was declared a second time after it went, and has a branch open. -/
def workshop : Program :=
  ⟨[.ofBody entry [] [.act (.perform .send "x")], .ofBody "rest" [] [.tau],
    (Function.empty "idle").openBranch.push .tau]⟩

theorem history_workshop : History ["idle", entry, "rest", "idle"] workshop := by
  let ds : List Definition := [⟨"idle", [], [.tau]⟩, ⟨entry, [], [.act (.perform .send "x")]⟩,
    ⟨"rest", [], [.tau]⟩, ⟨"idle", [], [.act (.perform .send "y")]⟩]
  have start : readDefinitions "def idle(): tau; def main.main(): send x; def rest(): tau;
      def idle(): send y;" = .ok ds := by decide +kernel
  have silent : (ofDefinitions ds).silentFunctions =
      [(.ofBody "idle" [] [.tau], 0), (.ofBody "rest" [] [.tau], 2)] := by cbv
  have left : (Id.run (((ofDefinitions ds).dropSilent giveUpFirst).run false)).1.2 =
      ⟨[.ofBody entry [] [.act (.perform .send "x")], .ofBody "rest" [] [.tau]]⟩ := by
    rw [dropSilent, silent]
    decide +kernel
  have gone := (History.read start).dropSilent giveUpFirst false
  rw [left] at gone
  have again := History.add (.edit .closeBranch (.empty "idle")) gone
  exact (again.edit "idle" .openBranch).edit "idle" (.pushAll [.tau, .tau])

theorem history_keeps_workshop : History ["idle", entry, "rest", "idle"] workshop ∧
    workshop.names.Nodup ∧
    (∀ name i, workshop.position? name = some i ↔
      ∃ f, workshop.functions[i]? = some f ∧ f.name = name) ∧
    (∀ name f, workshop.function? name = some f ↔ f ∈ workshop.functions ∧ f.name = name) ∧
    (∀ f ∈ workshop.functions, f.communicates = Block.communicates f.body ∧
      (Parameter.formals f.parameters).Nodup ∧
      ∀ formal x, f.parameter formal = .ok x ↔ x ∈ f.parameters ∧ x.formal = formal) ∧
    workshop.names.Sublist ["idle", entry, "rest", "idle"].dedup :=
  ⟨history_workshop, history_keeps history_workshop⟩

end Program
end ProcessCalculus
