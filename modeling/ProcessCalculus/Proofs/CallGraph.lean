import Mathlib.Data.List.Perm.Subperm
import ProcessCalculus.CallGraph.Discovery
import ProcessCalculus.Proofs.CallRelation
import ProcessCalculus.Proofs.FirstOfEach

/-!
The call graph of a program is its call relation. The order of its places depends only on the places
that wait to be entered, those of all frames put together, and holds every place once. The callees
of a place are recorded in the order in which its text names them first, although calls are recorded
in the middle of the traversals of other places and a place in progress is not entered again.
-/
namespace ProcessCalculus.CallGraph

variable {g : CallGraph} {callees : Nat → List Nat} {fresh pending : List Nat} {v : Nat}
  {caller : Option Nat} {stack : List Frame}

/-! The order of the places. -/

/-- The fresh places in the order of a search that starts from the pending ones: what the callees of
a place lead to comes before the places that wait behind it. -/
def preorder (callees : Nat → List Nat) (fresh : List Nat) : List Nat → List Nat
  | [] => []
  | v :: pending =>
    if v ∈ fresh then v :: preorder callees (fresh.erase v) (callees v ++ pending)
    else preorder callees fresh pending
termination_by pending => (fresh.length, pending.length)
decreasing_by
  · next new =>
    apply Prod.Lex.left
    rw [List.length_erase_of_mem new]
    exact Nat.sub_lt (List.length_pos_of_mem new) Nat.zero_lt_one
  · exact Prod.Lex.right _ (Nat.lt_succ_self _)

theorem fresh_of_mem_preorder (member : v ∈ preorder callees fresh pending) : v ∈ fresh := by
  fun_induction preorder callees fresh pending with
  | case1 => contradiction
  | case2 fresh w pending new ih =>
    rcases List.mem_cons.mp member with rfl | member
    · exact new
    · exact List.mem_of_mem_erase (ih member)
  | case3 fresh w pending known ih => exact ih member

theorem mem_preorder_of_pending (waits : v ∈ pending) (new : v ∈ fresh) :
    v ∈ preorder callees fresh pending := by
  fun_induction preorder callees fresh pending with
  | case1 => contradiction
  | case2 fresh w pending _ ih =>
    by_cases same : v = w
    · exact same ▸ List.mem_cons_self
    · refine List.mem_cons_of_mem _ (ih ?_ ((List.mem_erase_of_ne same).mpr new))
      exact List.mem_append_right _ ((List.mem_cons.mp waits).resolve_left same)
  | case3 fresh w pending known ih =>
    rcases List.mem_cons.mp waits with rfl | waits
    · exact absurd new known
    · exact ih waits new

theorem nodup_preorder (distinct : fresh.Nodup) : (preorder callees fresh pending).Nodup := by
  fun_induction preorder callees fresh pending with
  | case1 => exact List.nodup_nil
  | case2 fresh w pending new ih =>
    refine List.nodup_cons.mpr ⟨fun again => ?_, ih (distinct.erase w)⟩
    exact distinct.not_mem_erase (fresh_of_mem_preorder again)
  | case3 fresh w pending known ih => exact ih distinct

/-- What waits behind some places is entered when everything they lead to has been. -/
theorem preorder_append (callees : Nat → List Nat) (fresh first later : List Nat) :
    preorder callees fresh (first ++ later) = preorder callees fresh first ++
      preorder callees (fresh.diff (preorder callees fresh first)) later := by
  fun_induction preorder callees fresh first with
  | case1 fresh => rfl
  | case2 fresh v pending new ih =>
    rw [List.cons_append, preorder, if_pos new, ← List.append_assoc, ih, List.diff_cons]
    rfl
  | case3 fresh v pending known ih =>
    rw [List.cons_append, preorder, if_neg known, ih]

theorem preorder_skip (known : v ∉ fresh) (first later : List Nat) :
    preorder callees fresh (first ++ v :: later) = preorder callees fresh (first ++ later) := by
  have left : v ∉ fresh.diff (preorder callees fresh first) := fun member =>
    known ((List.diff_subset _ _) member)
  rw [preorder_append, preorder_append, preorder, if_neg left]

/-- The frames of a search matter for the order only through the places they await. -/
theorem order_discover (callees : Nat → List Nat) (fresh : List Nat) (g : CallGraph)
    (stack : List Frame) (distinct : fresh.Nodup) : (discover callees fresh g stack).order =
      g.order ++ preorder callees fresh (stack.flatMap Frame.pending) := by
  fun_induction discover callees fresh g stack with
  | case1 fresh g => rw [List.flatMap_nil, preorder, List.append_nil]
  | case2 fresh g caller stack ih => exact ih distinct
  | case3 fresh g caller place pending stack new ih =>
    rw [ih (distinct.erase place), addPlace, List.append_assoc, List.singleton_append]
    simp only [List.flatMap_cons, List.cons_append]
    rw [preorder_skip distinct.not_mem_erase, preorder, if_pos new]
  | case4 fresh g caller place pending stack known recorded ih =>
    have sameOrder : recorded.order = g.order := by
      cases caller with
      | none => rfl
      | some c => exact order_addCall g c place
    rw [ih distinct, sameOrder, List.flatMap_cons, List.flatMap_cons, List.cons_append, preorder,
      if_neg known]

theorem order_eq_preorder (p : Program) :
    p.callGraph.order = preorder p.callees (List.range p.size) (List.range p.size) := by
  rw [Program.callGraph, order_discover _ _ _ _ List.nodup_range, List.flatMap_singleton]
  rfl

theorem nodup_order (p : Program) : p.callGraph.order.Nodup :=
  order_eq_preorder p ▸ nodup_preorder List.nodup_range

/-- Every place of a program is numbered exactly once. -/
theorem order_perm (p : Program) : p.callGraph.order.Perm (List.range p.size) := by
  rw [List.perm_ext_iff_of_nodup (nodup_order p) List.nodup_range, order_eq_preorder]
  exact fun v => ⟨fresh_of_mem_preorder, fun member => mem_preorder_of_pending member member⟩

theorem mem_order (p : Program) (v : Nat) : v ∈ p.callGraph.order ↔ v < p.size := by
  rw [(order_perm p).mem_iff, List.mem_range]

/-! The callees of one place. -/

/-- The callees known of a place when some more have been met. -/
def note (known more : List Nat) : List Nat :=
  more.foldl (fun known b => if b ∈ known then known else known ++ [b]) known

/-- What dealing with a frame makes known of the callees of a place. -/
def Frame.noted (place : Nat) (known : List Nat) (f : Frame) : List Nat :=
  if f.caller = some place then note known f.pending else known

theorem note_nil (more : List Nat) : note [] more = more.eraseDups := by
  have first := foldl_first_nil id more
  simp only [List.map_id, id] at first
  exact first

theorem callees_addCall (g : CallGraph) (a b c : Nat) :
    (g.addCall a b).callees c = Frame.noted c (g.callees c) ⟨some a, [b]⟩ := by
  by_cases same : a = c
  · subst same
    rw [Frame.noted, if_pos rfl, note, List.foldl_cons, List.foldl_nil, addCall]
    simp only [mem_callees]
    split
    · rfl
    · simp [callees]
  · rw [Frame.noted, if_neg (mt Option.some.inj same), addCall]
    split
    · rfl
    · simp [callees, same]

theorem noted_nil (place : Nat) (known : List Nat) (caller : Option Nat) :
    Frame.noted place known ⟨caller, []⟩ = known := by
  unfold Frame.noted
  split <;> rfl

theorem noted_cons (place : Nat) (known : List Nat) (caller : Option Nat) (v : Nat)
    (pending : List Nat) : Frame.noted place known ⟨caller, v :: pending⟩ =
      Frame.noted place (Frame.noted place known ⟨caller, [v]⟩) ⟨caller, pending⟩ := by
  unfold Frame.noted
  split <;> rfl

/-- No caller on the stack is fresh any more, and every fresh place is awaited by a frame. -/
structure Awaits (fresh : List Nat) (stack : List Frame) : Prop where
  entered : ∀ f ∈ stack, ∀ c, f.caller = some c → c ∉ fresh
  awaited : ∀ v ∈ fresh, ∃ f ∈ stack, v ∈ f.pending

theorem Awaits.leave (awaits : Awaits fresh (⟨caller, []⟩ :: stack)) : Awaits fresh stack := by
  refine ⟨fun f member => awaits.entered f (List.mem_cons_of_mem _ member), fun v waits => ?_⟩
  obtain ⟨f, member, inside⟩ := awaits.awaited v waits
  rcases List.mem_cons.mp member with rfl | member
  · contradiction
  · exact ⟨f, member, inside⟩

theorem Awaits.enter (distinct : fresh.Nodup) (awaits : Awaits fresh stack) (more : List Nat) :
    Awaits (fresh.erase v) (⟨some v, more⟩ :: stack) := by
  constructor
  · intro f member c called waits
    rcases List.mem_cons.mp member with rfl | member
    · obtain rfl := Option.some.inj called
      exact distinct.not_mem_erase waits
    · exact awaits.entered f member c called (List.mem_of_mem_erase waits)
  · intro w waits
    obtain ⟨f, member, inside⟩ := awaits.awaited w (List.mem_of_mem_erase waits)
    exact ⟨f, List.mem_cons_of_mem _ member, inside⟩

theorem Awaits.pass (known : v ∉ fresh) (awaits : Awaits fresh (⟨caller, v :: pending⟩ :: stack)) :
    Awaits fresh (⟨caller, pending⟩ :: stack) := by
  obtain ⟨entered, awaited⟩ := awaits
  constructor
  · intro f member
    rcases List.mem_cons.mp member with rfl | member
    · exact entered ⟨caller, v :: pending⟩ List.mem_cons_self
    · exact entered f (List.mem_cons_of_mem _ member)
  · intro w waits
    obtain ⟨f, member, inside⟩ := awaited w waits
    rcases List.mem_cons.mp member with rfl | member
    · rcases List.mem_cons.mp inside with rfl | inside
      · exact absurd waits known
      · exact ⟨_, List.mem_cons_self, inside⟩
    · exact ⟨f, List.mem_cons_of_mem _ member, inside⟩

/-- The callees known of a place, those of a fresh place counted in advance. -/
def foreseen (callees : Nat → List Nat) (fresh : List Nat) (g : CallGraph) (a : Nat) : List Nat :=
  if a ∈ fresh then note (g.callees a) (callees a) else g.callees a

theorem foreseen_addPlace (distinct : fresh.Nodup) (new : v ∈ fresh) (a : Nat) :
    Frame.noted a (foreseen callees (fresh.erase v) (g.addPlace v) a) ⟨some v, callees v⟩ =
      foreseen callees fresh g a := by
  unfold foreseen Frame.noted
  by_cases same : a = v
  · subst same
    rw [if_neg distinct.not_mem_erase, if_pos new, if_pos rfl]
    rfl
  · rw [if_neg (mt Option.some.inj (Ne.symm same))]
    simp only [List.mem_erase_of_ne same]
    rfl

/-- A caller is not fresh, so what is recorded for it stands behind what is known of it. -/
theorem foreseen_addCall {c : Nat} (entered : c ∉ fresh) (a : Nat) :
    foreseen callees fresh (g.addCall c v) a =
      Frame.noted a (foreseen callees fresh g a) ⟨some c, [v]⟩ := by
  unfold foreseen
  rw [callees_addCall]
  by_cases same : c = a
  · subst same
    rw [if_neg entered, if_neg entered]
  · have other : ∀ known, Frame.noted a known ⟨some c, [v]⟩ = known := fun known =>
      if_neg (mt Option.some.inj same)
    rw [other, other]

/-- The callees of a place are noted one after the other, those of a fresh place from the first on
and those of a caller from where its frame stands. -/
theorem callees_discover (callees : Nat → List Nat) (fresh : List Nat) (g : CallGraph)
    (stack : List Frame) (distinct : fresh.Nodup) (awaits : Awaits fresh stack) (a : Nat) :
    (discover callees fresh g stack).callees a =
      stack.foldl (Frame.noted a) (foreseen callees fresh g a) := by
  fun_induction discover callees fresh g stack with
  | case1 fresh g =>
    have done : a ∉ fresh := fun waits => by simpa using awaits.awaited a waits
    rw [foreseen, if_neg done, List.foldl_nil]
  | case2 fresh g caller stack ih =>
    rw [ih distinct awaits.leave, List.foldl_cons, noted_nil]
  | case3 fresh g caller place pending stack new ih =>
    rw [ih (distinct.erase place) (awaits.enter distinct _), List.foldl_cons,
      foreseen_addPlace distinct new]
  | case4 fresh g caller place pending stack known recorded ih =>
    have recorded_eq : foreseen callees fresh recorded a =
        Frame.noted a (foreseen callees fresh g a) ⟨caller, [place]⟩ := by
      cases caller with
      | none => rfl
      | some c => exact foreseen_addCall (awaits.entered _ List.mem_cons_self c rfl) a
    rw [ih distinct (awaits.pass known), recorded_eq, List.foldl_cons, ← noted_cons,
      List.foldl_cons]

theorem lt_size_of_callee {p : Program} {a b : Nat} (callee : b ∈ p.callees a) :
    a < p.size := by
  rw [Program.callees] at callee
  split at callee
  · next f found => exact (List.getElem?_eq_some_iff.mp found).1
  · contradiction

/-- The callees of a place in the order in which its text names them first. -/
theorem callees_eq (p : Program) (a : Nat) : p.callGraph.callees a = (p.callees a).eraseDups := by
  have awaits : Awaits (List.range p.size) [⟨none, List.range p.size⟩] :=
    ⟨by simp, fun v waits => ⟨_, List.mem_cons_self, waits⟩⟩
  have all : p.callGraph.callees a = foreseen p.callees (List.range p.size) empty a :=
    callees_discover _ _ _ _ List.nodup_range awaits a
  rw [all, foreseen]
  split
  · exact note_nil _
  · next beyond =>
    have none : p.callees a = [] := List.eq_nil_iff_forall_not_mem.mpr fun b callee =>
      beyond (List.mem_range.mpr (lt_size_of_callee callee))
    rw [none]
    rfl

/-- The recorded calls are those of the texts. -/
theorem mem_calls (p : Program) (a b : Nat) :
    (a, b) ∈ p.callGraph.calls ↔ b ∈ p.callees a := by
  rw [← mem_callees, callees_eq, List.mem_eraseDups]

end ProcessCalculus.CallGraph

namespace ProcessCalculus

theorem Program.mem_calls_eq (p : Program) :
    (fun a b => (a, b) ∈ p.callGraph.calls) = p.PlaceCalls := by
  funext a b
  exact propext (CallGraph.mem_calls p a b)

end ProcessCalculus
