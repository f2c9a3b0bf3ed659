import Mathlib.Data.Fintype.Pigeonhole
import Mathlib.Order.WellFounded
import Mathlib.Logic.Relation
import ProcessCalculus.CallGraph.Basic

/-!
The call relation between the names of a program, what a function leads to, and the cycles. Places
carry the same relation as the names of the functions that stand there, so a fact about the graph of
places is a fact about the text.
-/
namespace ProcessCalculus

open Relation (ReflTransGen TransGen)

namespace Program

/-- A function calls or spawns another; both are defined. -/
def Calls (p : Program) (f g : String) : Prop :=
  ∃ caller ∈ p.functions, caller.name = f ∧ g ∈ Block.targets caller.body ∧ g ∈ p.names

def Leads (p : Program) : String → String → Prop := ReflTransGen p.Calls

/-- A function that calls itself is on a cycle. -/
def OnCycle (p : Program) (f : String) : Prop := TransGen p.Calls f f

/-- The function named `start` or a cycle leads to `f`. -/
def Led (p : Program) (start f : String) : Prop :=
  p.Leads start f ∨ ∃ g, p.OnCycle g ∧ p.Leads g f

/-- The call relation between the places of the functions. -/
def PlaceCalls (p : Program) (a b : Nat) : Prop := b ∈ p.callees a

variable {p : Program}

theorem mem_names {name : String} : name ∈ p.names ↔ ∃ f ∈ p.functions, f.name = name := by
  simp [names]

theorem Calls.caller_defined {f g : String} (calls : p.Calls f g) : f ∈ p.names := by
  obtain ⟨caller, member, rfl, -⟩ := calls
  exact mem_names.mpr ⟨caller, member, rfl⟩

theorem Calls.callee_defined {f g : String} (calls : p.Calls f g) : g ∈ p.names := by
  obtain ⟨_, _, _, _, defined⟩ := calls
  exact defined

theorem Leads.start_defined {f g : String} (leads : p.Leads f g) (defined : g ∈ p.names) :
    f ∈ p.names := by
  cases leads.cases_head with
  | inl same => exact same ▸ defined
  | inr step =>
    obtain ⟨_, first, -⟩ := step
    exact first.caller_defined

theorem Led.trans {start f g : String} (led : p.Led start f) (leads : p.Leads f g) :
    p.Led start g := by
  rcases led with path | ⟨h, cycle, path⟩
  · exact .inl (ReflTransGen.trans path leads)
  · exact .inr ⟨h, cycle, ReflTransGen.trans path leads⟩

theorem eq_of_name (distinct : p.names.Nodup) {f g : Function} (hf : f ∈ p.functions)
    (hg : g ∈ p.functions) (same : f.name = g.name) : f = g :=
  List.inj_on_of_nodup_map distinct hf hg same

/-- Where keys are distinct, looking for a key finds the one item of that key. -/
theorem find?_key_eq_some_iff {α : Type} {key : α → String} {items : List α}
    (distinct : (items.map key).Nodup) {name : String} {a : α} :
    items.find? (fun b => key b = name) = some a ↔ a ∈ items ∧ key a = name := by
  constructor
  · intro found
    have named := List.find?_some found
    exact ⟨List.mem_of_find?_eq_some found, of_decide_eq_true named⟩
  · rintro ⟨member, rfl⟩
    cases found : items.find? fun b => key b = key a with
    | none =>
      have other := List.find?_eq_none.mp found a member
      exact absurd (decide_eq_true rfl) other
    | some b =>
      have named := List.find?_some found
      have inside := List.mem_of_find?_eq_some found
      rw [List.inj_on_of_nodup_map distinct inside member (of_decide_eq_true named)]

theorem function?_eq_some_iff (distinct : p.names.Nodup) {name : String} {f : Function} :
    p.function? name = some f ↔ f ∈ p.functions ∧ f.name = name :=
  find?_key_eq_some_iff distinct

theorem calls_iff (distinct : p.names.Nodup) {f : Function} (member : f ∈ p.functions)
    {g : String} : p.Calls f.name g ↔ g ∈ Block.targets f.body ∧ g ∈ p.names := by
  constructor
  · rintro ⟨caller, inside, same, target, defined⟩
    obtain rfl := eq_of_name distinct inside member same
    exact ⟨target, defined⟩
  · rintro ⟨target, defined⟩
    exact ⟨f, member, rfl, target, defined⟩

theorem position?_eq_some_iff (distinct : p.names.Nodup) {name : String} {i : Nat} :
    p.position? name = some i ↔ ∃ f : Function, p.functions[i]? = some f ∧ f.name = name := by
  rw [position?, List.findIdx?_eq_some_iff_getElem]
  constructor
  · rintro ⟨within, same, -⟩
    exact ⟨_, List.getElem?_eq_getElem within, of_decide_eq_true same⟩
  · rintro ⟨f, found, rfl⟩
    obtain ⟨within, rfl⟩ := List.getElem?_eq_some_iff.mp found
    refine ⟨within, decide_eq_true rfl, ?_⟩
    intro j before same
    have equal : p.functions[j].name = p.functions[i].name := of_decide_eq_true same
    have inside : i < p.names.length := by simpa [names] using within
    have earlier : j < p.names.length := before.trans inside
    have repeated : p.names[j] = p.names[i] := by simpa [names] using equal
    have places : j = i := (List.Nodup.getElem_inj_iff distinct).mp repeated
    omega

theorem eq_of_places (distinct : p.names.Nodup) {i j : Nat} {f g : Function}
    (fi : p.functions[i]? = some f) (gj : p.functions[j]? = some g) (same : f.name = g.name) :
    i = j := by
  have first := (position?_eq_some_iff distinct).mpr ⟨f, fi, same⟩
  have second := (position?_eq_some_iff distinct).mpr ⟨g, gj, rfl⟩
  exact Option.some.inj (first.symm.trans second)

theorem lt_size {i : Nat} {f : Function} (found : p.functions[i]? = some f) : i < p.size :=
  (List.getElem?_eq_some_iff.mp found).1

/-- Functions whose places pass a test, where the functions tell which places do. -/
theorem filter_places {test : Nat → Bool} {keep : Function → Bool}
    (agree : ∀ i f, p.functions[i]? = some f → test i = keep f) :
    (p.functions.zipIdx.filter fun x => test x.2).map Prod.fst = p.functions.filter keep := by
  have pairs : p.functions.zipIdx.filter (fun x => test x.2) =
      p.functions.zipIdx.filter (keep ∘ Prod.fst) := by
    apply List.filter_congr
    rintro ⟨f, i⟩ member
    exact agree i f (List.mk_mem_zipIdx_iff_getElem?.mp member)
  rw [pairs, ← List.filter_map, List.zipIdx_map_fst]

/-- Leaving out places keeps the functions of the other places, in order. -/
theorem functions_without {places : BitSet} {keep : Function → Bool}
    (agree : ∀ i f, p.functions[i]? = some f → places.contains i = !keep f) :
    (p.without places).functions = p.functions.filter keep :=
  @filter_places p (fun i => !places.contains i) keep fun i f fi => by
    rw [agree i f fi, Bool.not_not]

/-- Where functions go by name, the names left are those that stay. -/
theorem mem_names_of_filter {q : Program} (keep : String → Bool)
    (fewer : q.functions = p.functions.filter fun h => keep h.name) {name : String} :
    name ∈ q.names ↔ name ∈ p.names ∧ keep name = true := by
  have left : q.names = p.names.filter keep := by
    rw [names, fewer, names, List.filter_map]
    rfl
  rw [left, List.mem_filter]

theorem exists_place {name : String} (defined : name ∈ p.names) :
    ∃ (i : Nat) (f : Function), p.functions[i]? = some f ∧ f.name = name := by
  obtain ⟨f, member, same⟩ := mem_names.mp defined
  obtain ⟨i, found⟩ := List.mem_iff_getElem?.mp member
  exact ⟨i, f, found, same⟩

theorem placeCalls_iff (distinct : p.names.Nodup) {i j : Nat} {f g : Function}
    (fi : p.functions[i]? = some f) (gj : p.functions[j]? = some g) :
    p.PlaceCalls i j ↔ p.Calls f.name g.name := by
  have definedG : g.name ∈ p.names := mem_names.mpr ⟨g, List.mem_of_getElem? gj, rfl⟩
  have placeG : p.position? g.name = some j := (position?_eq_some_iff distinct).mpr ⟨g, gj, rfl⟩
  rw [calls_iff distinct (List.mem_of_getElem? fi), PlaceCalls, callees, fi]
  simp only [List.mem_filterMap]
  constructor
  · rintro ⟨name, target, place⟩
    obtain ⟨h, hj, rfl⟩ := (position?_eq_some_iff distinct).mp place
    obtain rfl : h = g := Option.some.inj (hj.symm.trans gj)
    exact ⟨target, definedG⟩
  · rintro ⟨target, -⟩
    exact ⟨g.name, target, placeG⟩

/-- Both ends of a call between places are places of functions. -/
theorem PlaceCalls.functions {i j : Nat} (calls : p.PlaceCalls i j) :
    (∃ f, p.functions[i]? = some f) ∧ ∃ g, p.functions[j]? = some g := by
  rw [PlaceCalls, callees] at calls
  split at calls
  · next f found =>
    obtain ⟨name, -, place⟩ := List.mem_filterMap.mp calls
    rw [position?, List.findIdx?_eq_some_iff_getElem] at place
    obtain ⟨within, -⟩ := place
    exact ⟨⟨f, found⟩, _, List.getElem?_eq_getElem within⟩
  · contradiction

theorem leads_iff (distinct : p.names.Nodup) {i j : Nat} {f g : Function}
    (fi : p.functions[i]? = some f) (gj : p.functions[j]? = some g) :
    ReflTransGen p.PlaceCalls i j ↔ p.Leads f.name g.name := by
  constructor
  · intro path
    induction path generalizing g with
    | refl =>
      obtain rfl := Option.some.inj (fi.symm.trans gj)
      exact .refl
    | tail _ last ih =>
      obtain ⟨⟨h, hk⟩, -⟩ := last.functions
      exact (ih hk).tail ((placeCalls_iff distinct hk gj).mp last)
  · intro path
    generalize same : g.name = name at path
    induction path generalizing j g with
    | refl =>
      obtain rfl := eq_of_places distinct gj fi same
      exact .refl
    | tail _ last ih =>
      obtain ⟨k, h, hk, named⟩ := exists_place last.caller_defined
      refine (ih hk named).tail ((placeCalls_iff distinct hk gj).mpr ?_)
      rw [named, same]
      exact last

theorem onCycle_iff (distinct : p.names.Nodup) {i : Nat} {f : Function}
    (fi : p.functions[i]? = some f) : TransGen p.PlaceCalls i i ↔ p.OnCycle f.name := by
  rw [OnCycle, TransGen.head'_iff, TransGen.head'_iff]
  constructor
  · rintro ⟨j, first, rest⟩
    obtain ⟨-, g, gj⟩ := first.functions
    exact ⟨g.name, (placeCalls_iff distinct fi gj).mp first, (leads_iff distinct gj fi).mp rest⟩
  · rintro ⟨name, first, rest⟩
    obtain ⟨j, g, gj, rfl⟩ := exists_place first.callee_defined
    exact ⟨j, (placeCalls_iff distinct fi gj).mpr first, (leads_iff distinct gj fi).mpr rest⟩

end Program

/-! With finitely many callers, a place either has only finite chains of callers or is led to by a
cycle. -/

section Chains

variable {r : Nat → Nat → Prop}

theorem not_acc_of_cycle {c v : Nat} (cycle : TransGen r c c) (leads : ReflTransGen r c v) :
    ¬ Acc r v := by
  intro accessible
  have start : Acc (TransGen r) c := by
    induction leads with
    | refl => exact accessible.transGen
    | tail _ last ih => exact ih (accessible.inv last)
  induction start with
  | intro x _ ih => exact ih x cycle cycle leads

theorem leads_of_descending {f : Nat → Nat} (descends : ∀ n, r (f (n + 1)) (f n)) (i k : Nat) :
    ReflTransGen r (f (i + k)) (f i) := by
  induction k with
  | zero => exact .refl
  | succ k ih => exact .head (descends (i + k)) ih

/-- An endless chain of callers repeats one of them, since there are only `n`. -/
theorem acc_or_cycle {n : Nat} (bounded : ∀ a b, r a b → a < n) (v : Nat) :
    Acc r v ∨ ∃ c, TransGen r c c ∧ ReflTransGen r c v := by
  by_cases accessible : Acc r v
  · exact .inl accessible
  · right
    rw [acc_iff_isEmpty_descending_chain, not_isEmpty_iff] at accessible
    obtain ⟨f, rfl, descends⟩ := accessible
    let caller (i : Nat) : Fin n := ⟨f (i + 1), bounded _ _ (descends i)⟩
    obtain ⟨i, j, different, same⟩ := Finite.exists_ne_map_eq_of_infinite caller
    wlog before : i < j generalizing i j
    · exact this j i different.symm same.symm (by omega)
    have equal : f (i + 1) = f (j + 1) := congrArg Fin.val same
    obtain ⟨k, rfl⟩ : ∃ k, j = i + 1 + k := Nat.exists_eq_add_of_le before
    refine ⟨f (i + 1), ?_, ?_⟩
    · have closes : TransGen r (f (i + 1 + k + 1)) (f (i + 1)) :=
        .head' (descends (i + 1 + k)) (leads_of_descending descends (i + 1) k)
      rwa [← equal] at closes
    · simpa using leads_of_descending descends 0 (i + 1)

end Chains
end ProcessCalculus
