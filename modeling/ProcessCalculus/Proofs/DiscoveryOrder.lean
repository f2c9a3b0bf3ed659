import ProcessCalculus.Proofs.Adjacency

/-!
Node numbers are ranks in a depth-first order. What is entered from a list of places is entered
before what waits behind them, so a place is entered after some place that calls it and before the
search returns from that one.
-/
namespace ProcessCalculus

open Relation (ReflTransGen)

namespace CallGraph

variable {callees : Nat → List Nat} {fresh pending : List Nat} {u v w : Nat}

/-! What is entered. -/

/-- The search does not leave a place before its fresh callees have been entered. -/
theorem callee_mem_preorder (member : u ∈ preorder callees fresh pending) (callee : v ∈ callees u)
    (new : v ∈ fresh) : v ∈ preorder callees fresh pending := by
  fun_induction preorder callees fresh pending with
  | case1 => contradiction
  | case2 fresh w pending _ ih =>
    by_cases same : v = w
    · exact same ▸ List.mem_cons_self
    · have still : v ∈ fresh.erase w := (List.mem_erase_of_ne same).mpr new
      apply List.mem_cons_of_mem
      rcases List.mem_cons.mp member with rfl | member
      · exact mem_preorder_of_pending (List.mem_append_left _ callee) still
      · exact ih member still
  | case3 fresh w pending known ih => exact ih member new

theorem led_of_mem_preorder (member : v ∈ preorder callees fresh pending) :
    ∃ u ∈ pending, ReflTransGen (fun a b => b ∈ callees a) u v := by
  fun_induction preorder callees fresh pending with
  | case1 => contradiction
  | case2 fresh w pending _ ih =>
    rcases List.mem_cons.mp member with rfl | member
    · exact ⟨v, List.mem_cons_self, .refl⟩
    · obtain ⟨u, waits, path⟩ := ih member
      rcases List.mem_append.mp waits with callee | waits
      · exact ⟨w, List.mem_cons_self, path.head callee⟩
      · exact ⟨u, List.mem_cons_of_mem _ waits, path⟩
  | case3 fresh w pending known ih =>
    obtain ⟨u, waits, path⟩ := ih member
    exact ⟨u, List.mem_cons_of_mem _ waits, path⟩

/-- With nothing entered before, a search enters what the pending places lead to. -/
theorem mem_preorder_iff (inside : ∀ a b, b ∈ callees a → b ∈ fresh)
    (start : ∀ a ∈ pending, a ∈ fresh) : v ∈ preorder callees fresh pending ↔
      ∃ u ∈ pending, ReflTransGen (fun a b => b ∈ callees a) u v := by
  refine ⟨led_of_mem_preorder, ?_⟩
  rintro ⟨u, waits, path⟩
  induction path with
  | refl => exact mem_preorder_of_pending waits (start u waits)
  | tail _ callee ih => exact callee_mem_preorder ih callee (inside _ _ callee)

/-! Ranks. -/

/-- Behind a place stands the order of a search that has just entered it. -/
theorem drop_preorder {i : Nat} (here : (preorder callees fresh pending)[i]? = some v) :
    ∃ others waiting : List Nat, (preorder callees fresh pending).drop (i + 1) =
      preorder callees (others.erase v) (callees v ++ waiting) := by
  fun_induction preorder callees fresh pending generalizing i with
  | case1 => simp at here
  | case2 fresh w pending new ih =>
    rw [List.drop_succ_cons]
    cases i with
    | zero =>
      obtain rfl := Option.some.inj here
      exact ⟨fresh, pending, List.drop_zero⟩
    | succ i => exact ih here
  | case3 fresh w pending known ih => exact ih here

/-- A place that was not pending is entered after one that calls it. -/
theorem called_before {k : Nat} (here : (preorder callees fresh pending)[k]? = some v) :
    v ∈ pending ∨ ∃ j u, j < k ∧ (preorder callees fresh pending)[j]? = some u ∧ v ∈ callees u := by
  fun_induction preorder callees fresh pending generalizing k with
  | case1 => simp at here
  | case2 fresh w pending new ih =>
    cases k with
    | zero =>
      obtain rfl := Option.some.inj here
      exact .inl List.mem_cons_self
    | succ k =>
      rcases ih here with waits | ⟨j, u, before, there, callee⟩
      · rcases List.mem_append.mp waits with callee | waits
        · exact .inr ⟨0, w, Nat.succ_pos k, rfl, callee⟩
        · exact .inl (List.mem_cons_of_mem _ waits)
      · exact .inr ⟨j + 1, u, Nat.succ_lt_succ before, there, callee⟩
  | case3 fresh w pending known ih =>
    rcases ih here with waits | earlier
    · exact .inl (List.mem_cons_of_mem _ waits)
    · exact .inr earlier

/-- Where nothing is repeated, the ranks of a first part come before all others. -/
theorem lt_length_of_mem {first rest : List Nat} (distinct : (first ++ rest).Nodup) {k : Nat}
    (here : (first ++ rest)[k]? = some v) (member : v ∈ first) : k < first.length := by
  by_contra beyond
  rw [List.getElem?_append_right (Nat.le_of_not_lt beyond)] at here
  exact List.disjoint_of_nodup_append distinct member (List.mem_of_getElem? here)

/-- A place between another and a later callee of it has a caller from that other on. -/
theorem called_between {a b c : Nat} (distinct : (preorder callees fresh pending).Nodup)
    (ha : (preorder callees fresh pending)[a]? = some u)
    (hb : (preorder callees fresh pending)[b]? = some v)
    (hc : (preorder callees fresh pending)[c]? = some w) (ab : a < b) (bc : b < c)
    (callee : w ∈ callees u) : v ∈ callees u ∨
      ∃ d x, a < d ∧ d < b ∧ (preorder callees fresh pending)[d]? = some x ∧ v ∈ callees x := by
  obtain ⟨others, waiting, after⟩ := drop_preorder ha
  have behind : ∀ k, (preorder callees fresh pending)[a + 1 + k]? =
      (preorder callees (others.erase u) (callees u ++ waiting))[k]? := by
    intro k
    rw [← after, List.getElem?_drop]
  have distinct := after ▸ distinct.sublist (List.drop_sublist (a + 1) _)
  obtain ⟨k, rfl⟩ : ∃ k, b = a + 1 + k := Nat.exists_eq_add_of_le ab
  obtain ⟨l, rfl⟩ : ∃ l, c = a + 1 + l := Nat.exists_eq_add_of_le (ab.trans bc)
  rw [behind] at hb hc
  have new : w ∈ others.erase u := fresh_of_mem_preorder (List.mem_of_getElem? hc)
  -- `w` is entered from the callees of `u`, and so is `v`, before what waited behind them
  rw [preorder_append] at behind distinct hb hc
  have within := lt_length_of_mem distinct hc (mem_preorder_of_pending callee new)
  rw [List.getElem?_append_left (by omega)] at hb
  rcases called_before hb with called | ⟨j, x, before, there, called⟩
  · exact .inl called
  · refine .inr ⟨a + 1 + j, x, by omega, by omega, ?_, called⟩
    rw [behind, List.getElem?_append_left (by omega), there]

end CallGraph

namespace Program

open CallGraph (preorder)

variable {p : Program}

/-- The search from the first functions comes before that from all others. -/
theorem exists_order_eq (p : Program) {i : Nat} (within : i < p.size) : ∃ later,
    p.callGraph.order = preorder p.callees (List.range p.size) (List.range (i + 1)) ++ later := by
  obtain ⟨others, total⟩ : ∃ others, p.size = i + 1 + others := Nat.exists_eq_add_of_le within
  have split : List.range p.size = List.range (i + 1) ++ (List.range others).map (i + 1 + ·) := by
    rw [total, List.range_add]
  rw [CallGraph.order_eq_preorder]
  exact ⟨_, (congrArg (preorder p.callees (List.range p.size)) split).trans
    (CallGraph.preorder_append _ _ _ _)⟩

/-- What the first functions lead to has the first numbers, and all of it has one of these. -/
theorem exists_initial_segment (p : Program) {i : Nat} (within : i < p.size) :
    ∃ n, (∀ a, a < n ↔ ∃ v, p.callGraph.place? a = some v ∧
        ∃ u ≤ i, ReflTransGen p.PlaceCalls u v) ∧
      ∀ u ≤ i, ∀ v, ReflTransGen p.PlaceCalls u v → ∃ a < n, p.callGraph.place? a = some v := by
  obtain ⟨later, order⟩ := p.exists_order_eq within
  have distinct := order ▸ CallGraph.nodup_order p
  have member (v : Nat) : v ∈ preorder p.callees (List.range p.size) (List.range (i + 1)) ↔
      ∃ u ≤ i, ReflTransGen p.PlaceCalls u v := by
    rw [CallGraph.mem_preorder_iff]
    · simp only [List.mem_range, Nat.lt_succ_iff]
      rfl
    · intro a b callee
      obtain ⟨-, f, fb⟩ := PlaceCalls.functions callee
      exact List.mem_range.mpr (lt_size fb)
    · intro a small
      rw [List.mem_range] at small ⊢
      omega
  refine ⟨(preorder p.callees (List.range p.size) (List.range (i + 1))).length, fun a => ?_, ?_⟩
  · simp only [CallGraph.place?, order, ← member]
    constructor
    · intro small
      refine ⟨_, ?_, List.getElem_mem small⟩
      rw [List.getElem?_append_left small, List.getElem?_eq_getElem small]
    · rintro ⟨v, here, inside⟩
      exact CallGraph.lt_length_of_mem distinct here inside
  · intro u early v path
    obtain ⟨a, small, here⟩ := List.mem_iff_getElem.mp ((member v).mpr ⟨u, early, path⟩)
    refine ⟨a, small, ?_⟩
    simp only [CallGraph.place?, order, List.getElem?_append_left small,
      List.getElem?_eq_getElem small, here]

theorem mem_successors {a b : Nat} : b ∈ p.callGraph.successors a ↔
    ∃ u v, p.callGraph.place? a = some u ∧ p.callGraph.place? b = some v ∧ v ∈ p.callees u := by
  simp only [CallGraph.mem_successors (CallGraph.nodup_order p), CallGraph.mem_calls]

/-- The edges are the calls between the functions of their nodes. -/
theorem mem_successors_iff_calls (distinct : p.names.Nodup) {a b : Nat} :
    b ∈ p.callGraph.successors a ↔ ∃ u v f h, p.callGraph.place? a = some u ∧
      p.callGraph.place? b = some v ∧ p.functions[u]? = some f ∧ p.functions[v]? = some h ∧
        p.Calls f.name h.name := by
  rw [mem_successors]
  constructor
  · rintro ⟨u, v, ha, hb, callee⟩
    obtain ⟨⟨f, fu⟩, h, hv⟩ := PlaceCalls.functions callee
    exact ⟨u, v, f, h, ha, hb, fu, hv, (placeCalls_iff distinct fu hv).mp callee⟩
  · rintro ⟨u, v, f, h, ha, hb, fu, hv, calls⟩
    exact ⟨u, v, ha, hb, (placeCalls_iff distinct fu hv).mpr calls⟩

theorem exists_caller_between {a b c : Nat} (ab : a < b) (bc : b < c)
    (calls : c ∈ p.callGraph.successors a) (indirect : b ∉ p.callGraph.successors a) :
    ∃ d, a < d ∧ d < b ∧ b ∈ p.callGraph.successors d := by
  obtain ⟨u, w, ha, hc, callee⟩ := mem_successors.mp calls
  have inside : b < p.size := by
    have small := (CallGraph.exists_place?_iff p c).mp ⟨w, hc⟩
    omega
  obtain ⟨v, hb⟩ := (CallGraph.exists_place?_iff p b).mpr inside
  have rank (k x : Nat) : p.callGraph.place? k = some x ↔
      (preorder p.callees (List.range p.size) (List.range p.size))[k]? = some x := by
    rw [CallGraph.place?, CallGraph.order_eq_preorder]
  have distinct := CallGraph.order_eq_preorder p ▸ CallGraph.nodup_order p
  rcases CallGraph.called_between distinct ((rank a u).mp ha) ((rank b v).mp hb)
    ((rank c w).mp hc) ab bc callee with called | ⟨d, x, after, before, hd, called⟩
  · exact absurd (mem_successors.mpr ⟨u, v, ha, hb, called⟩) indirect
  · exact ⟨d, after, before, mem_successors.mpr ⟨x, v, (rank d x).mpr hd, hb, called⟩⟩

/-- Nodes are numbered depth first: the functions that those up to some place lead to, themselves
included, are numbered, and theirs are the first numbers; a node between another and a later
successor of it is a successor of that node or of one between them. The successors of a node are
those of the functions that its function calls. -/
theorem callGraph_depthFirst (distinct : p.names.Nodup) :
    (∀ i < p.size, ∃ n,
      (∀ a, a < n ↔ ∃ v h, p.callGraph.place? a = some v ∧
        p.functions[v]? = some h ∧ ∃ u f, u ≤ i ∧ p.functions[u]? = some f ∧
          p.Leads f.name h.name) ∧
      ∀ u f v h, u ≤ i → p.functions[u]? = some f → p.functions[v]? = some h →
        p.Leads f.name h.name → ∃ a < n, p.callGraph.place? a = some v) ∧
    (∀ a b c, a < b → b < c → c ∈ p.callGraph.successors a → b ∉ p.callGraph.successors a →
      ∃ d, a < d ∧ d < b ∧ b ∈ p.callGraph.successors d) ∧
    ∀ a b, b ∈ p.callGraph.successors a ↔ ∃ u v f h, p.callGraph.place? a = some u ∧
      p.callGraph.place? b = some v ∧ p.functions[u]? = some f ∧ p.functions[v]? = some h ∧
        p.Calls f.name h.name := by
  refine ⟨fun i within => ?_, fun a b c => exists_caller_between,
    fun a b => mem_successors_iff_calls distinct⟩
  obtain ⟨n, segment, numbered⟩ := p.exists_initial_segment within
  refine ⟨n, fun a => (segment a).trans ?_, ?_⟩
  · constructor
    · rintro ⟨v, here, u, early, path⟩
      have small := (CallGraph.mem_order p v).mp (List.mem_of_getElem? here)
      have fu := List.getElem?_eq_getElem (Nat.lt_of_le_of_lt early within)
      have hv := List.getElem?_eq_getElem small
      exact ⟨v, _, here, hv, u, _, early, fu, (leads_iff distinct fu hv).mp path⟩
    · rintro ⟨v, h, here, hv, u, f, early, fu, leads⟩
      exact ⟨v, here, u, early, (leads_iff distinct fu hv).mpr leads⟩
  · intro u f v h early fu hv leads
    exact numbered u early v ((leads_iff distinct fu hv).mpr leads)

/-- The first function calls the last node and not the one before it, which its first callee
calls. -/
def harbour : Program :=
  ⟨[.ofBody "pilot" [] [.invoke .call "tug" [], .invoke .spawn "crane" []],
    .ofBody "crane" [] [.act (.perform .receive "load")],
    .ofBody "tug" [] [.select [[.invoke .call "berth" []], [.invoke .call "pilot" []]]],
    .ofBody "berth" [] [.invoke .call "berth" []]]⟩

theorem order_harbour : harbour.callGraph.order = [0, 2, 3, 1] := by cbv

theorem callGraph_depthFirst_harbour : harbour.names.Nodup ∧ 0 < harbour.size ∧
    (∃ n, (∀ a, a < n ↔ ∃ v h, harbour.callGraph.place? a = some v ∧
        harbour.functions[v]? = some h ∧ ∃ u f, u ≤ 0 ∧ harbour.functions[u]? = some f ∧
          harbour.Leads f.name h.name) ∧
      harbour.Leads "pilot" "berth" ∧ ∃ a < n, harbour.callGraph.place? a = some 3) ∧
    3 ∈ harbour.callGraph.successors 0 ∧ 2 ∉ harbour.callGraph.successors 0 ∧
    ∃ d, 0 < d ∧ d < 2 ∧ 2 ∈ harbour.callGraph.successors d := by
  have leads : harbour.Leads "pilot" "berth" := by
    have first : harbour.Calls "pilot" "tug" :=
      ⟨_, List.mem_cons_self, rfl, by decide, by decide⟩
    have second : harbour.Calls "tug" "berth" :=
      ⟨_, List.mem_cons_of_mem _ (List.mem_cons_of_mem _ List.mem_cons_self), rfl, by decide,
        by decide⟩
    exact .tail (.single first) second
  have calls : 3 ∈ harbour.callGraph.successors 0 := by
    rw [mem_successors, CallGraph.place?, CallGraph.place?, order_harbour]
    exact ⟨0, 1, rfl, rfl, by decide⟩
  have indirect : 2 ∉ harbour.callGraph.successors 0 := by
    rw [mem_successors, CallGraph.place?, CallGraph.place?, order_harbour]
    rintro ⟨u, v, hu, hv, callee⟩
    obtain rfl : 0 = u := Option.some.inj hu
    obtain rfl : 3 = v := Option.some.inj hv
    exact absurd callee (by decide)
  obtain ⟨segments, between, -⟩ := callGraph_depthFirst (p := harbour) (by decide)
  obtain ⟨n, segment, numbered⟩ := segments 0 (by decide)
  exact ⟨by decide, by decide,
    ⟨n, segment, leads, numbered 0 _ 3 _ (Nat.le_refl 0) rfl rfl leads⟩, calls, indirect,
    between 0 2 3 (by decide) (by decide) calls indirect⟩

end Program
end ProcessCalculus
