import ProcessCalculus.Proofs.Adjacency
import ProcessCalculus.Proofs.Journal
import ProcessCalculus.Proofs.Uncalled

/-!
The removal as a loop over tables. Every node has a table of the callers that are still there, and
a node that goes is taken out of the tables of its successors only. A queue accepts again what it
gave out, but here a node has been queued exactly where its table is empty, and a table is emptied
once. The loop runs in step with the one over the list of calls.
-/
namespace ProcessCalculus

/-- The state after as many rounds, none where the steps end before. -/
def rounds {σ : Type} (step : σ → Option σ) (start : σ) : Nat → Option σ
  | 0 => some start
  | k + 1 => (rounds step start k).bind step

section

variable {σ : Type} {step : σ → Option σ} {start : σ}

theorem rounds_invariant {P : Nat → σ → Prop} (first : P 0 start)
    (next : ∀ k s t, P k s → step s = some t → P (k + 1) t) {k : Nat} {s : σ}
    (reached : rounds step start k = some s) : P k s := by
  induction k generalizing s with
  | zero => exact Option.some.inj reached ▸ first
  | succ k ih =>
    obtain ⟨r, before, last⟩ := Option.bind_eq_some_iff.mp reached
    exact next k r s (ih before) last

/-- Steps that never go beyond a number of rounds end within it. -/
theorem exists_last_round {bound : Nat}
    (within : ∀ k s, rounds step start k = some s → k ≤ bound) :
    ∃ k ≤ bound, ∃ s, rounds step start k = some s ∧ step s = none := by
  by_contra endless
  have onward : ∀ k ≤ bound + 1, ∃ s, rounds step start k = some s := by
    intro k small
    induction k with
    | zero => exact ⟨start, rfl⟩
    | succ k ih =>
      obtain ⟨s, reached⟩ := ih (Nat.le_of_succ_le small)
      cases next : step s with
      | none => exact absurd ⟨k, Nat.le_of_succ_le_succ small, s, reached, next⟩ endless
      | some t => exact ⟨t, Option.bind_eq_some_iff.mpr ⟨s, reached, next⟩⟩
  obtain ⟨s, beyond⟩ := onward (bound + 1) le_rfl
  exact Nat.not_succ_le_self bound (within _ s beyond)

end

theorem getElem?_map_range {β : Type} (f : Nat → β) (n v : Nat) :
    ((List.range n).map f)[v]? = if v < n then some (f v) else none := by
  rw [List.getElem?_map]
  split
  · next within => rw [List.getElem?_range within, Option.map_some]
  · next beyond => rw [List.getElem?_eq_none (by simpa using beyond), Option.map_none]

/-- Progress of the removal in tables: the callers of every node that are still there, the nodes
that wait and have waited, and the places that went. -/
structure Sweep where
  predecessors : List (List Nat)
  work : Journal Nat
  removed : BitSet

namespace Sweep

/-- The callers of a node that are left when one goes. -/
def left (s : Sweep) (node succ : Nat) : List Nat :=
  (s.predecessors[succ]?.getD []).filter (· ≠ node)

/-- Takes a node out of the table of a successor, which waits where no caller is left. -/
def visit (node : Nat) (s : Sweep) (succ : Nat) : Sweep :=
  { s with
    predecessors := s.predecessors.set succ (s.left node succ)
    work := if (s.left node succ).isEmpty then s.work.push succ else s.work }

/-- A node goes: it leaves the tables of its successors, and its place is removed. -/
def leave (g : CallGraph) (s : Sweep) (node : Nat) : Sweep :=
  let t := (g.successors node).foldl (visit node) s
  match g.place? node with
  | some place => { t with removed := t.removed.insert place }
  | none => t

/-- Whether the place of a node is to be kept. -/
def spares (g : CallGraph) (keep : Nat → Bool) (node : Nat) : Bool := (g.place? node).any keep

/-- Takes the node that has waited longest, none where nothing waits. A node to keep changes no
table; any other goes. -/
def step (g : CallGraph) (keep : Nat → Bool) (s : Sweep) : Option Sweep :=
  match s.work.pop? with
  | none => none
  | some (node, work) =>
    if spares g keep node then some { s with work } else some (leave g { s with work } node)

theorem step_eq_none_iff {g : CallGraph} {keep : Nat → Bool} {s : Sweep} :
    step g keep s = none ↔ s.work.pop? = none := by
  rw [step]
  cases s.work.pop? with
  | none => simp
  | some taken =>
    simp only [reduceCtorEq, iff_false]
    split <;> simp

/-- The start: the tables are those of the graph, and every node without a caller waits. -/
def ofGraph (g : CallGraph) (size : Nat) : Sweep :=
  ⟨(List.range g.size).map g.predecessors,
    Journal.blank.extend ((List.range g.size).filter fun v => (g.predecessors v).isEmpty),
    .empty size⟩

/-- The nodes taken so far that were not to be kept. -/
def gone (g : CallGraph) (keep : Nat → Bool) (s : Sweep) : List Nat :=
  s.work.taken.filter fun v => !spares g keep v

/-- A node has been queued exactly where its table is empty, and none twice. -/
structure Balanced (s : Sweep) : Prop where
  kept : s.work.Kept
  once : s.work.queued.Nodup
  emptied : ∀ v, v ∈ s.work.queued ↔ s.predecessors[v]? = some []

theorem leave_eq {g : CallGraph} {node place : Nat} (here : g.place? node = some place)
    (s : Sweep) : leave g s node =
      { (g.successors node).foldl (visit node) s with
        removed := ((g.successors node).foldl (visit node) s).removed.insert place } := by
  rw [leave, here]

variable {s t : Sweep} {node succ : Nat}

/-- What it is to have visited some successors of a node. -/
structure Visited (node : Nat) (succs : List Nat) (s t : Sweep) : Prop where
  balanced : t.Balanced
  taken : t.work.taken = s.work.taken
  waiting : t.work.queue.toList =
    s.work.queue.toList ++ succs.filter fun succ => (s.left node succ).isEmpty
  removed : t.removed = s.removed
  tables : ∀ v, t.predecessors[v]? =
    if v ∈ succs then some (s.left node v) else s.predecessors[v]?

/-- The table of a node that the visited one calls is not empty, so the node was never queued. -/
theorem Balanced.visit {callers : List Nat} (balanced : s.Balanced)
    (table : s.predecessors[succ]? = some callers) (called : node ∈ callers) :
    Visited node [succ] s (s.visit node succ) := by
  have within : succ < s.predecessors.length := (List.getElem?_eq_some_iff.mp table).1
  have new : succ ∉ s.work.queued := fun again => by
    rw [balanced.emptied, table, Option.some.injEq] at again
    exact List.not_mem_nil (again ▸ called)
  have tables : ∀ v, (s.visit node succ).predecessors[v]? =
      if v ∈ [succ] then some (s.left node v) else s.predecessors[v]? := by
    intro v
    rw [Sweep.visit, List.getElem?_set]
    by_cases same : succ = v
    · subst same
      simp [within]
    · simp [same, Ne.symm same]
  by_cases last : (s.left node succ).isEmpty = true
  · have fresh : succ ∉ s.work.queue.toList := mt balanced.kept.mem_queued_of_waiting new
    obtain ⟨-, queued, taken, toList⟩ := balanced.kept.push_of_not_mem fresh
    have work : (s.visit node succ).work = s.work.push succ := if_pos last
    refine ⟨⟨work ▸ balanced.kept.push succ, ?_, fun v => ?_⟩, ?_, ?_, rfl, tables⟩
    · rw [work, queued]
      exact List.nodup_append.mpr ⟨balanced.once, List.nodup_singleton succ,
        fun a queued b single same => new (List.mem_singleton.mp single ▸ same ▸ queued)⟩
    · rw [work, queued, tables, List.mem_append]
      split
      · next same =>
        rw [List.mem_singleton.mp same, List.isEmpty_iff.mp last]
        simp
      · next other => rw [or_iff_left other, balanced.emptied]
    · rw [work, taken]
    · rw [work, toList, List.filter_singleton, last]
      rfl
  · have work : (s.visit node succ).work = s.work := if_neg last
    refine ⟨⟨work ▸ balanced.kept, work ▸ balanced.once, fun v => ?_⟩, ?_, ?_, rfl, tables⟩
    · rw [work, tables, balanced.emptied]
      split
      · next same =>
        rw [List.mem_singleton.mp same, table, Option.some.injEq, Option.some.injEq]
        exact iff_of_false (List.ne_nil_of_mem called) (mt List.isEmpty_iff.mpr last)
      · rfl
    · rw [work]
    · rw [work, List.filter_singleton, Bool.eq_false_of_not_eq_true last]
      exact (List.append_nil _).symm

theorem Visited.cons {succs : List Nat} {u : Sweep} (first : Visited node [succ] s t)
    (others : Visited node succs t u) (apart : succ ∉ succs) :
    Visited node (succ :: succs) s u := by
  have same : ∀ v ∈ succs, t.left node v = s.left node v := by
    intro v member
    have other : v ∉ [succ] := fun single => apart (List.mem_singleton.mp single ▸ member)
    rw [left, first.tables, if_neg other, left]
  refine ⟨others.balanced, others.taken.trans first.taken, ?_, others.removed.trans first.removed,
    fun v => ?_⟩
  · have later : succs.filter (fun v => (t.left node v).isEmpty) =
        succs.filter fun v => (s.left node v).isEmpty :=
      List.filter_congr fun v member => by rw [same v member]
    rw [others.waiting, first.waiting, later, List.append_assoc, ← List.filter_append]
    rfl
  · rw [others.tables, first.tables]
    by_cases member : v ∈ succs
    · rw [if_pos member, if_pos (List.mem_cons_of_mem _ member), same v member]
    · rw [if_neg member]
      simp only [List.mem_cons, member, List.not_mem_nil]

theorem Balanced.foldl_visit (balanced : s.Balanced) {succs : List Nat} (apart : succs.Nodup)
    (called : ∀ v ∈ succs, ∃ callers, s.predecessors[v]? = some callers ∧ node ∈ callers) :
    Visited node succs s (succs.foldl (Sweep.visit node) s) := by
  induction succs generalizing s with
  | nil => exact ⟨balanced, rfl, (List.append_nil _).symm, rfl, fun v => (if_neg (by simp)).symm⟩
  | cons succ succs ih =>
    obtain ⟨new, others⟩ := List.nodup_cons.mp apart
    obtain ⟨callers, table, member⟩ := called succ List.mem_cons_self
    have first := balanced.visit table member
    refine first.cons (ih first.balanced others fun v later => ?_) new
    have other : v ∉ [succ] := fun single => new (List.mem_singleton.mp single ▸ later)
    rw [first.tables, if_neg other]
    exact called v (List.mem_cons_of_mem _ later)

end Sweep

namespace CallGraph

theorem mem_predecessors (p : Program) {a b : Nat} :
    a ∈ p.callGraph.predecessors b ↔ b ∈ p.callGraph.successors a := by
  rw [← List.count_pos_iff, count_predecessors (nodup_order p) (nodup_calls p)]
  split <;> simp [*]

theorem place?_inj (p : Program) {a b i : Nat} (first : p.callGraph.place? a = some i)
    (second : p.callGraph.place? b = some i) : a = b := by
  rw [← node?_eq_some_iff (nodup_order p)] at first second
  exact Option.some.inj (first.symm.trans second)

theorem node?_inj (p : Program) {i j a : Nat} (first : p.callGraph.node? i = some a)
    (second : p.callGraph.node? j = some a) : i = j := by
  rw [node?_eq_some_iff (nodup_order p)] at first second
  exact Option.some.inj (first.symm.trans second)

theorem nodup_successors (p : Program) (a : Nat) : (p.callGraph.successors a).Nodup := by
  rw [successors]
  split
  · next i here =>
    rw [callees_eq]
    exact .filterMap (fun _ _ _ => node?_inj p) (nodup_eraseDups _)
  · exact List.nodup_nil

/-- The successors of a node stand at the callees of its place. -/
theorem filterMap_successors (p : Program) {a i : Nat} (here : p.callGraph.place? a = some i) :
    (p.callGraph.successors a).filterMap p.callGraph.place? = p.callGraph.callees i := by
  rw [successors, here, List.filterMap_filterMap]
  refine (List.filterMap_congr fun j callee => ?_).trans List.filterMap_some
  obtain ⟨v, there⟩ := (exists_node?_iff p j).mpr
    (Program.lt_size_of_call (mem_callees.mp callee)).2
  rw [there]
  exact (node?_eq_some_iff (nodup_order p)).mp there

theorem lt_size_of_successor (p : Program) {a b : Nat} (called : b ∈ p.callGraph.successors a) :
    b < p.callGraph.size := by
  obtain ⟨-, v, -, there, -⟩ := (mem_successors (nodup_order p)).mp called
  exact (List.getElem?_eq_some_iff.mp there).1

/-- What holds of the nodes before a node holds of the places that call its place. -/
theorem forall_predecessors_iff (p : Program) {v i : Nat} (here : p.callGraph.place? v = some i)
    {ofNode ofPlace : Nat → Prop}
    (agree : ∀ a b, p.callGraph.place? a = some b → (ofNode a ↔ ofPlace b)) :
    (∀ a ∈ p.callGraph.predecessors v, ofNode a) ↔
      ∀ b, (b, i) ∈ p.callGraph.calls → ofPlace b := by
  simp only [mem_predecessors, mem_successors (nodup_order p), here, Option.some.injEq]
  constructor
  · intro all b call
    obtain ⟨a, there⟩ := List.mem_iff_getElem?.mp
      ((mem_order p b).mpr (Program.lt_size_of_call call).1)
    exact (agree a b there).mp (all a ⟨b, i, there, rfl, call⟩)
  · rintro all a ⟨b, j, there, rfl, call⟩
    exact (agree a b there).mpr (all b call)

end CallGraph

namespace Sweep

/-- The tables and the places that went against the nodes taken so far. -/
structure Tied (p : Program) (keep : Nat → Bool) (s : Sweep) : Prop where
  balanced : s.Balanced
  tables : ∀ v, s.predecessors[v]? = if v < p.callGraph.size then
    some ((p.callGraph.predecessors v).filter (· ∉ s.gone p.callGraph keep)) else none
  packed : s.removed.Packed
  size : s.removed.size = p.size
  removed : ∀ i, s.removed.contains i = true ↔
    ∃ v ∈ s.gone p.callGraph keep, p.callGraph.place? v = some i

variable {p : Program} {keep : Nat → Bool} {s t : Sweep} {node : Nat} {rest : Journal Nat}

theorem Balanced.pop (balanced : s.Balanced) (took : s.work.pop? = some (node, rest)) :
    s.predecessors[node]? = some [] ∧ node ∉ s.work.taken ∧
      ({ s with work := rest } : Sweep).Balanced := by
  obtain ⟨waiting, -, queued, -, -⟩ := balanced.kept.pop took
  have order := balanced.kept.order
  rw [waiting] at order
  have member : node ∈ s.work.queued := by simp [order]
  refine ⟨(balanced.emptied node).mp member, fun again => ?_, balanced.kept.of_pop took, ?_, ?_⟩
  · have once := balanced.once
    rw [order, List.nodup_append] at once
    exact once.2.2 node again node List.mem_cons_self rfl
  · exact queued ▸ balanced.once
  · exact queued ▸ balanced.emptied

theorem gone_of_spared {g : CallGraph} (taken : t.work.taken = s.work.taken ++ [node])
    (kept : spares g keep node = true) : t.gone g keep = s.gone g keep := by
  rw [gone, gone, taken, List.filter_append, List.filter_singleton, kept]
  exact List.append_nil _

theorem gone_of_given {g : CallGraph} (taken : t.work.taken = s.work.taken ++ [node])
    (given : spares g keep node = false) : t.gone g keep = s.gone g keep ++ [node] := by
  rw [gone, gone, taken, List.filter_append, List.filter_singleton, given]
  rfl

namespace Tied

theorem lt_size (tied : Tied p keep s) {v : Nat} (queued : v ∈ s.work.queued) :
    v < p.callGraph.size := by
  rw [tied.balanced.emptied, tied.tables] at queued
  split at queued
  · assumption
  · contradiction

theorem start (p : Program) (keep : Nat → Bool) :
    Tied p keep (.ofGraph p.callGraph p.size) := by
  have all : ∀ v, (ofGraph p.callGraph p.size).predecessors[v]? =
      if v < p.callGraph.size then some (p.callGraph.predecessors v) else none :=
    getElem?_map_range _ _
  have none : (ofGraph p.callGraph p.size).gone p.callGraph keep = [] := by
    rw [gone, ofGraph, Journal.taken_extend]
    rfl
  obtain ⟨fewer, members⟩ := Journal.kept_blank.queued_extend
    ((List.range p.callGraph.size).filter fun v => (p.callGraph.predecessors v).isEmpty)
  refine ⟨⟨Journal.kept_blank.extend _, ?_, fun v => ?_⟩, fun v => ?_, BitSet.packed_empty _, rfl,
    fun i => ?_⟩
  · exact fewer.nodup (List.nodup_range.filter _)
  · refine (members v).trans ?_
    rw [all]
    by_cases within : v < p.callGraph.size <;> simp [within, Journal.blank, Journal.queued]
  · rw [all, none]
    simp
  · rw [none, ofGraph, BitSet.contains_empty]
    simp

/-- A node taken is still in the tables of all its successors. -/
theorem visited (tied : Tied p keep s) (took : s.work.pop? = some (node, rest)) :
    Visited node (p.callGraph.successors node) { s with work := rest }
      ((p.callGraph.successors node).foldl (visit node) { s with work := rest }) := by
  obtain ⟨-, new, balanced⟩ := tied.balanced.pop took
  refine balanced.foldl_visit (CallGraph.nodup_successors p node) fun v called => ?_
  refine ⟨_, (tied.tables v).trans (if_pos (CallGraph.lt_size_of_successor p called)), ?_⟩
  rw [List.mem_filter, CallGraph.mem_predecessors]
  exact ⟨called, decide_eq_true fun gone => new (List.mem_of_mem_filter gone)⟩

theorem emptied_iff (tied : Tied p keep s) {v : Nat} (called : v ∈ p.callGraph.successors node) :
    (s.left node v).isEmpty = true ↔
      ∀ a ∈ p.callGraph.predecessors v, a ∉ s.gone p.callGraph keep → a = node := by
  rw [left, tied.tables, if_pos (CallGraph.lt_size_of_successor p called), Option.getD_some,
    List.filter_filter, List.isEmpty_iff, List.filter_eq_nil_iff]
  refine forall₂_congr fun a _ => ?_
  rw [Bool.and_eq_true, decide_eq_true_eq, decide_eq_true_eq, not_and, not_imp_not]

theorem keepNext (tied : Tied p keep s) (took : s.work.pop? = some (node, rest))
    (kept : spares p.callGraph keep node = true) : Tied p keep { s with work := rest } := by
  have same : ({ s with work := rest } : Sweep).gone p.callGraph keep = s.gone p.callGraph keep :=
    gone_of_spared (tied.balanced.kept.pop took).2.2.2.1 kept
  refine ⟨(tied.balanced.pop took).2.2, ?_, tied.packed, tied.size, ?_⟩
  · rw [same]
    exact tied.tables
  · rw [same]
    exact tied.removed

theorem placed (tied : Tied p keep s) (took : s.work.pop? = some (node, rest)) :
    ∃ i, p.callGraph.place? node = some i ∧ i < p.size ∧ s.removed.contains i = false := by
  obtain ⟨empty, new, -⟩ := tied.balanced.pop took
  have within := tied.lt_size ((tied.balanced.emptied node).mpr empty)
  rw [CallGraph.size_callGraph] at within
  obtain ⟨i, here⟩ := (CallGraph.exists_place?_iff p node).mpr within
  refine ⟨i, here, (CallGraph.mem_order p i).mp (List.mem_of_getElem? here), ?_⟩
  rw [← Bool.not_eq_true, tied.removed]
  rintro ⟨v, gone, there⟩
  exact new (CallGraph.place?_inj p here there ▸ List.mem_of_mem_filter gone)

theorem taken_leave (tied : Tied p keep s) (took : s.work.pop? = some (node, rest)) :
    (leave p.callGraph { s with work := rest } node).work.taken = s.work.taken ++ [node] := by
  obtain ⟨i, here, -, -⟩ := tied.placed took
  rw [leave_eq here]
  exact (tied.visited took).taken.trans (tied.balanced.kept.pop took).2.2.2.1

theorem leaveNext (tied : Tied p keep s) (took : s.work.pop? = some (node, rest))
    (given : spares p.callGraph keep node = false) :
    Tied p keep (leave p.callGraph { s with work := rest } node) := by
  have after := tied.visited took
  have gone := gone_of_given (tied.taken_leave took) given
  obtain ⟨i, here, within, -⟩ := tied.placed took
  rw [leave_eq here] at gone ⊢
  generalize (p.callGraph.successors node).foldl (visit node) _ = t at after gone ⊢
  refine ⟨⟨after.balanced.kept, after.balanced.once, after.balanced.emptied⟩, fun v => ?_,
    after.removed ▸ tied.packed.insert i, ?_, fun j => ?_⟩
  · -- where `v` is no successor, the node stands in no table of it
    have without : (p.callGraph.predecessors v).filter (· ∉ s.gone p.callGraph keep ++ [node]) =
        ((p.callGraph.predecessors v).filter (· ∉ s.gone p.callGraph keep)).filter (· ≠ node) := by
      rw [List.filter_filter]
      refine List.filter_congr fun a _ => ?_
      simp [and_comm]
    rw [after.tables, gone, without, left, tied.tables]
    by_cases called : v ∈ p.callGraph.successors node
    · rw [if_pos called, if_pos (CallGraph.lt_size_of_successor p called),
        if_pos (CallGraph.lt_size_of_successor p called)]
      rfl
    · have absent : ∀ a ∈ p.callGraph.predecessors v, a ≠ node := by
        rintro a member rfl
        exact called ((CallGraph.mem_predecessors p).mp member)
      rw [if_neg called, List.filter_eq_self.mpr fun a member =>
        decide_eq_true (absent a (List.mem_of_mem_filter member))]
  · rw [after.removed]
    exact (BitSet.size_insert _ _).trans tied.size
  · rw [gone, after.removed, tied.packed.contains_insert, tied.removed, tied.size]
    constructor
    · rintro (⟨v, before, there⟩ | ⟨-, rfl⟩)
      · exact ⟨v, List.mem_append_left _ before, there⟩
      · exact ⟨node, List.mem_append_right _ List.mem_cons_self, here⟩
    · rintro ⟨v, member, there⟩
      rcases List.mem_append.mp member with before | single
      · exact .inl ⟨v, before, there⟩
      · rw [List.mem_singleton.mp single, here] at there
        exact .inr ⟨within, Option.some.inj there⟩

end Tied

/-- The same removal in tables and in calls. -/
structure Mirrors (p : Program) (keep : Nat → Bool) (s : Sweep) (c : Cascade) : Prop where
  sound : c.Sound p.callGraph p.size keep
  waiting : c.queue.toList = s.work.queue.toList.filterMap p.callGraph.place?
  removed : c.removed = s.removed

theorem filterMap_getElem?_range (items : List Nat) :
    (List.range items.length).filterMap (items[·]?) = items := by
  induction items with
  | nil => rfl
  | cons a items ih =>
    rw [List.length_cons, List.range_succ_eq_map, List.filterMap_cons, List.filterMap_map]
    exact congrArg (a :: ·) ih

/-- Nodes that pass a test stand at the places that pass it. -/
theorem filterMap_filter_places {g : CallGraph} {test keepPlace : Nat → Bool} {nodes : List Nat}
    (agree : ∀ v ∈ nodes, ∀ i, g.place? v = some i → test v = keepPlace i) :
    (nodes.filter test).filterMap g.place? = (nodes.filterMap g.place?).filter keepPlace := by
  rw [List.filterMap_filter, List.filter_filterMap]
  refine List.filterMap_congr fun v member => ?_
  cases here : g.place? v with
  | none => simp
  | some i => rw [agree v member i here, Option.filter_some]

namespace Mirrors

variable {c : Cascade}

theorem start (p : Program) (keep : Nat → Bool) :
    Mirrors p keep (.ofGraph p.callGraph p.size) (.ofGraph p.callGraph p.size) := by
  have extended : ∀ items : List Nat, items.Nodup → (WorkQueue.empty.extend items).toList = items :=
    fun items apart => WorkQueue.faithful_empty.toList_extend_of_fresh apart fun _ _ =>
      List.not_mem_nil
  have places : (Cascade.ofGraph p.callGraph p.size).queue.toList =
      p.callGraph.order.filter fun i => (p.callGraph.callers i).isEmpty :=
    extended _ ((CallGraph.nodup_order p).filter _)
  have nodes : (ofGraph p.callGraph p.size).work.queue.toList =
      (List.range p.callGraph.size).filter fun v => (p.callGraph.predecessors v).isEmpty := by
    rw [ofGraph, Journal.queue_extend]
    exact extended _ (List.nodup_range.filter _)
  have agree : ∀ v ∈ List.range p.callGraph.size, ∀ i, p.callGraph.place? v = some i →
      (p.callGraph.predecessors v).isEmpty = (p.callGraph.callers i).isEmpty := by
    intro v _ i here
    rw [Bool.eq_iff_iff, List.isEmpty_iff, List.isEmpty_iff, List.eq_nil_iff_forall_not_mem,
      List.eq_nil_iff_forall_not_mem]
    simp only [CallGraph.mem_callers]
    exact CallGraph.forall_predecessors_iff p here fun _ _ _ => Iff.rfl
  refine ⟨.start (fun v => (CallGraph.mem_order p v).mpr) (fun v => (CallGraph.mem_order p v).mp),
    ?_, rfl⟩
  rw [places, nodes, filterMap_filter_places agree]
  exact congrArg _ (filterMap_getElem?_range p.callGraph.order).symm

theorem mem_calls (mirrors : Mirrors p keep s c) (tied : Tied p keep s) {a b : Nat} :
    (a, b) ∈ c.calls ↔ (a, b) ∈ p.callGraph.calls ∧
      ¬ ∃ v ∈ s.gone p.callGraph keep, p.callGraph.place? v = some a := by
  rw [mirrors.sound.mem_calls, mirrors.removed, tied.removed]

theorem uncalled_iff (mirrors : Mirrors p keep s c) (tied : Tied p keep s) {i j : Nat} :
    (c.callsWithout i).all (·.2 ≠ j) = true ↔ ∀ b, (b, j) ∈ p.callGraph.calls →
      (¬ ∃ v ∈ s.gone p.callGraph keep, p.callGraph.place? v = some b) → b = i := by
  simp only [List.all_eq_true, Cascade.mem_callsWithout, decide_eq_true_eq]
  constructor
  · intro none b call stays
    by_contra other
    exact none (b, j) ⟨(mirrors.mem_calls tied).mpr ⟨call, stays⟩, other⟩ rfl
  · rintro only ⟨b, k⟩ ⟨call, other⟩ rfl
    obtain ⟨call, stays⟩ := (mirrors.mem_calls tied).mp call
    exact other (only b call stays)

/-- The places freed are those of the nodes whose tables are emptied. -/
theorem freed_eq (mirrors : Mirrors p keep s c) (tied : Tied p keep s) {i : Nat}
    (here : p.callGraph.place? node = some i) (stays : s.removed.contains i = false) :
    c.freed i = ((p.callGraph.successors node).filter fun v =>
      (s.left node v).isEmpty).filterMap p.callGraph.place? := by
  have callees : (c.calls.filter (·.1 = i)).map (·.2) = p.callGraph.callees i := by
    rw [mirrors.sound.calls, mirrors.removed, List.filter_filter, CallGraph.callees]
    congr 1
    refine List.filter_congr fun call _ => ?_
    by_cases same : call.1 = i
    · simp [same, stays]
    · simp [same]
  -- a caller other than the node that goes is still in the table where its call is still there
  have agree : ∀ a b, p.callGraph.place? a = some b →
      ((a ∉ s.gone p.callGraph keep → a = node) ↔
        ((¬ ∃ w ∈ s.gone p.callGraph keep, p.callGraph.place? w = some b) → b = i)) := by
    intro a b found
    refine imp_congr (not_congr ⟨fun gone => ⟨a, gone, found⟩, ?_⟩) ⟨?_, ?_⟩
    · rintro ⟨w, gone, same⟩
      exact CallGraph.place?_inj p same found ▸ gone
    · rintro rfl
      exact Option.some.inj (found.symm.trans here)
    · rintro rfl
      exact CallGraph.place?_inj p found here
  rw [Cascade.freed, callees, ← CallGraph.filterMap_successors p here]
  refine (filterMap_filter_places fun v called j there => ?_).symm
  rw [Bool.eq_iff_iff, tied.emptied_iff called, mirrors.uncalled_iff tied]
  exact CallGraph.forall_predecessors_iff p there agree

/-- A place freed does not wait: all callers of one that waits went before. -/
theorem toList_extend_freed (mirrors : Mirrors p keep s c) (tied : Tied p keep s) {i : Nat}
    (here : p.callGraph.place? node = some i) (stays : s.removed.contains i = false)
    {r : WorkQueue Nat} (popped : c.queue.pop? = some (i, r)) :
    (r.extend (c.freed i)).toList = r.toList ++ c.freed i := by
  have apart : (c.freed i).Nodup := by
    rw [mirrors.freed_eq tied here stays]
    exact .filterMap (fun _ _ _ => CallGraph.place?_inj p)
      ((CallGraph.nodup_successors p node).filter _)
  refine (mirrors.sound.faithful.pop popped).toList_extend_of_fresh apart fun j free waits => ?_
  have call := (mirrors.sound.mem_calls i j).mp (Cascade.mem_freed.mp free).1
  have later : j ∈ c.queue.toList :=
    (WorkQueue.toList_pop popped).symm ▸ List.mem_cons_of_mem _ waits
  exact call.2 (mirrors.sound.ready j later i call.1)

theorem keepNext (mirrors : Mirrors p keep s c) {i : Nat} {r : WorkQueue Nat}
    (popped : c.queue.pop? = some (i, r)) (kept : keep i = true)
    (others : r.toList = rest.queue.toList.filterMap p.callGraph.place?) :
    Mirrors p keep { s with work := rest } { c with queue := r } :=
  ⟨mirrors.sound.keepNext popped kept, others, mirrors.removed⟩

theorem leaveNext (mirrors : Mirrors p keep s c) (tied : Tied p keep s)
    (took : s.work.pop? = some (node, rest)) {i : Nat} {r : WorkQueue Nat}
    (here : p.callGraph.place? node = some i) (stays : s.removed.contains i = false)
    (popped : c.queue.pop? = some (i, r)) (given : keep i = false)
    (others : r.toList = rest.queue.toList.filterMap p.callGraph.place?) :
    Mirrors p keep (leave p.callGraph { s with work := rest } node)
      ⟨c.callsWithout i, r.extend (c.freed i), c.removed.insert i⟩ := by
  have after := tied.visited took
  rw [leave_eq here]
  refine ⟨mirrors.sound.removeNext (fun _ _ call => (Program.lt_size_of_call call).2) popped given,
    ?_, ?_⟩
  · rw [mirrors.toList_extend_freed tied here stays popped, others,
      mirrors.freed_eq tied here stays, after.waiting, List.filterMap_append]
    rfl
  · rw [after.removed, mirrors.removed]

theorem step (mirrors : Mirrors p keep s c) (tied : Tied p keep s)
    (next : s.step p.callGraph keep = some t) :
    Tied p keep t ∧ t.work.taken.length = s.work.taken.length + 1 ∧
      ∃ d, c.step keep = some d ∧ Mirrors p keep t d := by
  rw [Sweep.step] at next
  split at next
  · contradiction
  · next node rest took =>
    obtain ⟨waiting, -, -, taken, -⟩ := tied.balanced.kept.pop took
    obtain ⟨i, here, -, stays⟩ := tied.placed took
    have places : c.queue.toList = i :: rest.queue.toList.filterMap p.callGraph.place? := by
      rw [mirrors.waiting, waiting, List.filterMap_cons_some here]
    obtain ⟨r, popped, others⟩ := WorkQueue.toList_eq_cons_iff.mp places
    have same : spares p.callGraph keep node = keep i := by rw [spares, here, Option.any_some]
    rw [Cascade.step, popped]
    rw [same] at next
    split at next
    · next kept =>
      cases next
      refine ⟨tied.keepNext took (same.trans kept), ?_, _, if_pos kept,
        mirrors.keepNext popped kept others⟩
      rw [taken, List.length_append]
      rfl
    · next given =>
      cases next
      have given := Bool.eq_false_of_not_eq_true given
      refine ⟨tied.leaveNext took (same.trans given), ?_, _, ?_,
        mirrors.leaveNext tied took here stays popped given others⟩
      · rw [tied.taken_leave took, List.length_append]
        rfl
      · exact if_neg (Bool.eq_false_iff.mp given)

end Mirrors

/-- The nodes queued are distinct nodes of the graph, so no more are taken than it has. -/
theorem Tied.length_taken_le (tied : Tied p keep s) :
    s.work.taken.length ≤ p.callGraph.size := by
  have within : s.work.queued ⊆ List.range p.callGraph.size := fun v queued =>
    List.mem_range.mpr (tied.lt_size queued)
  have few := (List.subperm_of_subset tied.balanced.once within).length_le
  rw [List.length_range] at few
  exact tied.balanced.kept.taken_sublist.length_le.trans few

theorem reached {k : Nat}
    (after : rounds (step p.callGraph keep) (.ofGraph p.callGraph p.size) k = some s) :
    Tied p keep s ∧ s.work.taken.length = k ∧ ∃ c,
      rounds (Cascade.step keep) (.ofGraph p.callGraph p.size) k = some c ∧
        Mirrors p keep s c := by
  refine rounds_invariant (P := fun k s => Tied p keep s ∧ s.work.taken.length = k ∧ ∃ c,
    rounds (Cascade.step keep) (.ofGraph p.callGraph p.size) k = some c ∧ Mirrors p keep s c)
    ⟨.start p keep, ?_, _, rfl, .start p keep⟩ ?_ after
  · rw [ofGraph, Journal.taken_extend]
    rfl
  · rintro k s t ⟨tied, length, c, same, mirrors⟩ next
    obtain ⟨tied, longer, d, step, mirrors⟩ := mirrors.step tied next
    exact ⟨tied, longer.trans (congrArg (· + 1) length), d,
      Option.bind_eq_some_iff.mpr ⟨c, same, step⟩, mirrors⟩

end Sweep

theorem Cascade.run_of_rounds {keep : Nat → Bool} {c d : Cascade} {k : Nat}
    (reached : rounds (step keep) c k = some d) (ended : d.step keep = none) :
    c.run keep = d := by
  have onward : c.run keep = d.run keep := by
    refine rounds_invariant (P := fun _ e => c.run keep = e.run keep) rfl ?_ reached
    intro _ e f same next
    rw [same, run, next]
  rw [onward, run, ended]

namespace Program

/-- Whether the function at a place has that name. -/
def isNamed (p : Program) (name : String) (place : Nat) : Bool :=
  p.functions[place]?.any (·.name = name)

/-- The tables after as many rounds of the loop that keeps the entry only. -/
def sweep? (p : Program) (entry : String) : Nat → Option Sweep :=
  rounds (Sweep.step p.callGraph (p.isNamed entry)) (.ofGraph p.callGraph p.size)

/-- The calls after as many rounds of the loop that keeps the entry only. -/
def cascade? (p : Program) (entry : String) : Nat → Option Cascade :=
  rounds (Cascade.step fun place => p.position? entry = some place) (.ofGraph p.callGraph p.size)

variable {p : Program}

theorem isNamed_eq (distinct : p.names.Nodup) (name : String) :
    p.isNamed name = fun place => decide (p.position? name = some place) := by
  funext place
  rw [Bool.eq_iff_iff, decide_eq_true_iff, position?_eq_some_iff distinct, isNamed]
  cases p.functions[place]? <;> simp

/-- What holds of the tables when a round begins. -/
structure SweepHead (p : Program) (entry : String) (k : Nat) (s : Sweep) : Prop where
  /-- No node starts to wait again, although the queue would accept it. -/
  queued : s.work.queued.Nodup
  taken : s.work.taken.Nodup
  rounds : s.work.taken.length = k
  within : k ≤ p.callGraph.size
  /-- The tables are those of the graph, in order, without the nodes that went. -/
  predecessors : s.predecessors = (List.range p.callGraph.size).map fun v =>
    (p.callGraph.predecessors v).filter (· ∉ s.gone p.callGraph (p.isNamed entry))
  /-- The place of the node taken next did not go before, so none goes twice. -/
  fresh : ∀ node rest, s.work.pop? = some (node, rest) →
    ∃ i, p.callGraph.place? node = some i ∧ s.removed.contains? i = some false
  /-- The loop over the calls stands where this one does. -/
  mirrored : ∃ c, p.cascade? entry k = some c ∧
    c.queue.toList = s.work.queue.toList.filterMap p.callGraph.place? ∧ c.removed = s.removed

/-- The loop takes every node at most once and ends, and what it removed is what the program loses
when only the entry may stay uncalled. -/
theorem sweep_ends (distinct : p.names.Nodup) (entry : String) :
    (∀ k s, p.sweep? entry k = some s → p.SweepHead entry k s) ∧
      ∃ k ≤ p.callGraph.size, ∃ s, p.sweep? entry k = some s ∧ s.work.pop? = none ∧
        s.removed = p.uncalledPlaces entry := by
  have heads : ∀ k s, p.sweep? entry k = some s → p.SweepHead entry k s := by
    intro k s after
    obtain ⟨tied, length, c, same, mirrors⟩ := Sweep.reached after
    refine ⟨tied.balanced.once, tied.balanced.kept.taken_sublist.nodup tied.balanced.once, length,
      length ▸ tied.length_taken_le, ?_, fun node rest took => ?_, c, ?_, mirrors.waiting,
      mirrors.removed⟩
    · refine List.ext_getElem? fun v => ?_
      rw [tied.tables, getElem?_map_range]
    · obtain ⟨i, here, within, stays⟩ := tied.placed took
      refine ⟨i, here, ?_⟩
      rw [BitSet.contains?, tied.size, if_pos within, stays]
    · rw [cascade?, ← isNamed_eq distinct]
      exact same
  refine ⟨heads, ?_⟩
  obtain ⟨k, few, s, after, ended⟩ := exists_last_round fun k s after => (heads k s after).within
  obtain ⟨c, same, waiting, removed⟩ := (heads k s after).mirrored
  have empty : s.work.pop? = none := Sweep.step_eq_none_iff.mp ended
  refine ⟨k, few, s, after, empty, ?_⟩
  rw [Journal.pop?_eq_none_iff.mp empty, List.filterMap_nil] at waiting
  have last : c.step (fun place => p.position? entry = some place) = none := by
    rw [Cascade.step, WorkQueue.pop?_eq_none_iff.mpr waiting]
  rw [uncalledPlaces, Cascade.run_of_rounds same last, removed]

/-- The entry calls one function; another that nobody calls leads in two ways to a third, which
calls one that calls itself. -/
def orchard : Program :=
  ⟨[.ofBody "plan" [] [.invoke .call "press" []],
    .ofBody "sow" [] [.invoke .call "water" [], .invoke .spawn "weed" []],
    .ofBody "press" [] [.act (.perform .send "juice")],
    .ofBody "reap" [] [.invoke .call "store" []],
    .ofBody "weed" [] [.invoke .call "reap" []],
    .ofBody "water" [] [.invoke .call "reap" []],
    .ofBody "store" [] [.act (.perform .receive "fruit"), .invoke .call "store" []]]⟩

theorem sweep_ends_orchard : orchard.names.Nodup ∧
    ∃ k ≤ orchard.callGraph.size, ∃ s, orchard.sweep? "plan" k = some s ∧
      orchard.SweepHead "plan" k s ∧ s.work.pop? = none ∧
      s.removed = orchard.uncalledPlaces "plan" := by
  have distinct : orchard.names.Nodup := by decide
  obtain ⟨heads, k, few, s, after, ended⟩ := sweep_ends distinct "plan"
  exact ⟨distinct, k, few, s, after, heads k s after, ended⟩

/-- The node of the entry is taken and stays in the table of its successor. -/
example : (orchard.sweep? "plan" 5).map (fun s => (s.work.taken, s.predecessors)) =
    some ([0, 2, 3, 6, 4], [[], [0], [], [], [], [5], []]) := by cbv

end Program
end ProcessCalculus
