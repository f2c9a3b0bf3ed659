import ProcessCalculus.Proofs.CallGraph

/-!
Nodes and their neighbours. Node numbers and places are inverse to each other, the successors of a
node stand in the order in which its text names them first, and every caller stands among the
predecessors once.
-/
namespace ProcessCalculus

mutual

/-- A statement and the statements inside it, in the order of the text. -/
def Statement.parts : Statement → List Statement
  | .tau => [.tau]
  | .act action => [.act action]
  | .invoke mode callee arguments => [.invoke mode callee arguments]
  | .branch loop thenBody elseBody =>
    .branch loop thenBody elseBody :: (Block.parts thenBody ++ Block.parts elseBody)
  | .select cases => .select cases :: Statement.caseParts cases

/-- The statements of a block at every depth. -/
def Block.parts : List Statement → List Statement
  | [] => []
  | s :: rest => s.parts ++ Block.parts rest

def Statement.caseParts : List (List Statement) → List Statement
  | [] => []
  | body :: rest => Block.parts body ++ Statement.caseParts rest

end

theorem Statement.caseParts_eq_flatMap (cs : List Block) :
    Statement.caseParts cs = cs.flatMap Block.parts := by
  induction cs with
  | nil => rfl
  | cons b cs ih => rw [caseParts, ih, List.flatMap_cons]

/-- The function that a call or spawn names. -/
def Statement.callee? : Statement → Option String
  | .invoke _ callee _ => some callee
  | _ => none

theorem Block.callees_of_members {b : Block}
    (members : ∀ s ∈ b, s.parts.filterMap Statement.callee? = s.targets) :
    (Block.parts b).filterMap Statement.callee? = Block.targets b := by
  induction b with
  | nil => rfl
  | cons s b ih =>
    obtain ⟨head, rest⟩ := List.forall_mem_cons.mp members
    rw [Block.parts, Block.targets, List.filterMap_append, head, ih rest]

theorem Statement.callees_parts (s : Statement) :
    s.parts.filterMap Statement.callee? = s.targets := by
  induction s using Statement.induct with
  | tau => rfl
  | act a => rfl
  | invoke m f xs => rfl
  | branch c t e ht he =>
    rw [parts, targets, List.filterMap_cons_none rfl, List.filterMap_append,
      Block.callees_of_members ht, Block.callees_of_members he]
  | select cs hcs =>
    rw [parts, targets, List.filterMap_cons_none rfl, caseParts_eq_flatMap,
      caseTargets_eq_flatMap, List.filterMap_flatMap]
    exact List.flatMap_congr fun b member => Block.callees_of_members (hcs b member)

theorem Block.callees_parts (b : Block) :
    (Block.parts b).filterMap Statement.callee? = Block.targets b :=
  callees_of_members fun s _ => s.callees_parts

namespace CallGraph

variable {g : CallGraph}

theorem nodup_calls_discover (callees : Nat → List Nat) (fresh : List Nat) (g : CallGraph)
    (stack : List Frame) (distinct : g.calls.Nodup) :
    (discover callees fresh g stack).calls.Nodup := by
  fun_induction discover callees fresh g stack with
  | case1 => exact distinct
  | case2 fresh g caller stack ih => exact ih distinct
  | case3 fresh g caller place pending stack new ih => exact ih distinct
  | case4 fresh g caller place pending stack known recorded ih =>
    apply ih
    cases caller with
    | none => exact distinct
    | some c => exact nodup_calls_addCall distinct c place

theorem nodup_calls (p : Program) : p.callGraph.calls.Nodup :=
  nodup_calls_discover _ _ _ _ List.nodup_nil

theorem node?_eq_some_iff (distinct : g.order.Nodup) {v a : Nat} :
    g.node? v = some a ↔ g.place? a = some v := by
  rw [node?, place?, List.idxOf?_eq_some_iff, List.getElem?_eq_some_iff]
  constructor
  · rintro ⟨within, same, -⟩
    exact ⟨within, same⟩
  · rintro ⟨within, same⟩
    refine ⟨within, same, fun j before again => ?_⟩
    have repeated : j = a := distinct.getElem_inj_iff.mp (again.trans same.symm)
    omega

theorem size_callGraph (p : Program) : p.callGraph.size = p.size := by
  rw [size, (order_perm p).length_eq, List.length_range]

theorem exists_place?_iff (p : Program) (a : Nat) :
    (∃ v, p.callGraph.place? a = some v) ↔ a < p.size := by
  rw [← size_callGraph, size, place?, ← Option.isSome_iff_exists, isSome_getElem?]

theorem exists_node?_iff (p : Program) (v : Nat) :
    (∃ a, p.callGraph.node? v = some a) ↔ v < p.size := by
  simp only [node?_eq_some_iff (nodup_order p)]
  rw [← mem_order, List.mem_iff_getElem?]
  rfl

theorem mem_successors (distinct : g.order.Nodup) {a b : Nat} : b ∈ g.successors a ↔
    ∃ u v, g.place? a = some u ∧ g.place? b = some v ∧ (u, v) ∈ g.calls := by
  rw [successors]
  split
  · next u here =>
    simp only [List.mem_filterMap, mem_callees, node?_eq_some_iff distinct, here,
      Option.some.injEq]
    constructor
    · rintro ⟨v, call, there⟩
      exact ⟨u, v, rfl, there, call⟩
    · rintro ⟨w, v, rfl, there, call⟩
      exact ⟨v, call, there⟩
  · next beyond => simp [beyond]

/-- A node is a caller as often as the call is recorded. -/
theorem count_predecessors (distinct : g.order.Nodup) (once : g.calls.Nodup) (a b : Nat) :
    (g.predecessors b).count a = if b ∈ g.successors a then 1 else 0 := by
  have apart : (g.predecessors b).Nodup := by
    rw [predecessors]
    split
    · refine List.Nodup.filterMap (fun u v c hu hv => ?_) ?_
      · have first := (node?_eq_some_iff distinct).mp hu
        have second := (node?_eq_some_iff distinct).mp hv
        exact Option.some.inj (first.symm.trans second)
      · refine List.Nodup.map_on ?_ (once.filter _)
        rintro ⟨u, v⟩ here ⟨w, x⟩ there same
        have ends := of_decide_eq_true (List.mem_filter.mp here).2
        have others := of_decide_eq_true (List.mem_filter.mp there).2
        exact Prod.ext same (ends.trans others.symm)
    · exact List.nodup_nil
  have member : a ∈ g.predecessors b ↔ b ∈ g.successors a := by
    rw [mem_successors distinct, predecessors]
    split
    · next v there =>
      simp only [List.mem_filterMap, mem_callers, node?_eq_some_iff distinct, there,
        Option.some.injEq]
      constructor
      · rintro ⟨u, call, here⟩
        exact ⟨u, v, here, rfl, call⟩
      · rintro ⟨u, w, here, rfl, call⟩
        exact ⟨u, call, here⟩
    · next beyond => simp [beyond]
  rw [apart.count]
  simp only [member]

end CallGraph

namespace Program

variable {p : Program}

/-- The node of the function of that name. -/
def nodeNamed? (p : Program) (g : CallGraph) (name : String) : Option Nat :=
  (p.position? name).bind g.node?

/-- The nodes that the calls and spawns of a block name, at every depth and in the order of the
text, repetitions included. -/
def nodesNamed (p : Program) (g : CallGraph) (b : Block) : List Nat :=
  ((Block.parts b).filterMap Statement.callee?).filterMap (p.nodeNamed? g)

theorem successors_eq (p : Program) {a i : Nat} {f : Function}
    (here : p.callGraph.place? a = some i) (fi : p.functions[i]? = some f) :
    p.callGraph.successors a = (p.nodesNamed p.callGraph f.body).eraseDups := by
  have apart : ∀ u v c, p.callGraph.node? u = some c → p.callGraph.node? v = some c → u = v := by
    intro u v c hu hv
    rw [CallGraph.node?_eq_some_iff (CallGraph.nodup_order p)] at hu hv
    exact Option.some.inj (hu.symm.trans hv)
  have targets : p.nodesNamed p.callGraph f.body = (p.callees i).filterMap p.callGraph.node? := by
    rw [nodesNamed, Block.callees_parts, callees, fi, List.filterMap_filterMap]
    rfl
  rw [targets, eraseDups_filterMap apart, ← CallGraph.callees_eq, CallGraph.successors, here]

theorem nodeNamed?_eq_some_iff (distinct : p.names.Nodup) {name : String} {a : Nat} :
    p.nodeNamed? p.callGraph name = some a ↔ ∃ i f, p.callGraph.place? a = some i ∧
      p.functions[i]? = some f ∧ f.name = name := by
  simp only [nodeNamed?, Option.bind_eq_some_iff, position?_eq_some_iff distinct,
    CallGraph.node?_eq_some_iff (CallGraph.nodup_order p)]
  constructor
  · rintro ⟨i, ⟨f, fi, named⟩, here⟩
    exact ⟨i, f, here, fi, named⟩
  · rintro ⟨i, f, here, fi, named⟩
    exact ⟨i, ⟨f, fi, named⟩, here⟩

/-- A graph whose nodes are the functions of a program and whose edges are the calls of its text. -/
structure Charts (p : Program) (g : CallGraph) : Prop where
  size : g.size = p.size
  /-- Numbers and places are inverse to each other. -/
  inverse : ∀ a i, g.place? a = some i ↔ g.node? i = some a
  numbered : ∀ a, (∃ i, g.place? a = some i) ↔ a < p.size
  placed : ∀ i, (∃ a, g.node? i = some a) ↔ i < p.size
  named : ∀ name a, p.nodeNamed? g name = some a ↔
    ∃ i f, g.place? a = some i ∧ p.functions[i]? = some f ∧ f.name = name
  /-- The text names the successors of a node first in this order. -/
  successors : ∀ a i f, g.place? a = some i → p.functions[i]? = some f →
    g.successors a = (p.nodesNamed g f.body).eraseDups
  /-- Every caller stands among the predecessors once. -/
  predecessors : ∀ a b, (g.predecessors b).count a = if b ∈ g.successors a then 1 else 0

theorem callGraph_charts (distinct : p.names.Nodup) : p.Charts p.callGraph where
  size := CallGraph.size_callGraph p
  inverse _ _ := (CallGraph.node?_eq_some_iff (CallGraph.nodup_order p)).symm
  numbered := CallGraph.exists_place?_iff p
  placed := CallGraph.exists_node?_iff p
  named _ _ := nodeNamed?_eq_some_iff distinct
  successors _ _ _ := successors_eq p
  predecessors := CallGraph.count_predecessors (CallGraph.nodup_order p) (CallGraph.nodup_calls p)

/-- Calls in branches and cases: one is repeated, one is of no function and two make a cycle. -/
def parcels : Program :=
  ⟨[.ofBody "post" [] [
      .select [[.act (.perform .receive "in"), .invoke .call "sort" []],
        [.invoke .spawn "post" []]],
      .branch none [.invoke .call "lost" []] [.invoke .spawn "sort" [], .invoke .call "log" []]],
    .ofBody "log" [] [.act (.perform .send "out")],
    .ofBody "sort" [] [.invoke .call "log" [], .invoke .call "post" []]]⟩

theorem callGraph_charts_parcels : parcels.names.Nodup ∧ parcels.Charts parcels.callGraph :=
  ⟨by decide, callGraph_charts (by decide)⟩

example : parcels.callGraph.order = [0, 2, 1] ∧
    (List.range 3).map parcels.callGraph.successors = [[1, 0, 2], [2, 0], []] := by cbv

end Program
end ProcessCalculus
