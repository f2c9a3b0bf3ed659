import ProcessCalculus.CallGraph.Discovery
import ProcessCalculus.WorkQueue

/-!
Removal of functions that nobody calls. The functions without a caller go first, then those whose
last caller went, and so on; the entry stays, and so does a cycle that nothing outside it calls.
-/
namespace ProcessCalculus

/-- Progress of the removal: the calls whose callers are still there, the places without a caller
that wait to go, and the places that went. -/
structure Cascade where
  calls : List (Nat × Nat)
  queue : WorkQueue Nat
  removed : BitSet

namespace Cascade

/-- The calls that are left when a caller goes. -/
def callsWithout (c : Cascade) (place : Nat) : List (Nat × Nat) := c.calls.filter (·.1 ≠ place)

/-- The callees of a place that are left without a caller when it goes. -/
def freed (c : Cascade) (place : Nat) : List Nat :=
  ((c.calls.filter (·.1 = place)).map (·.2)).filter fun callee =>
    (c.callsWithout place).all (·.2 ≠ callee)

theorem freed_eq_nil {c : Cascade} {place : Nat} (h : c.callsWithout place = c.calls) :
    c.freed place = [] := by
  have none : c.calls.filter (·.1 = place) = [] := by
    rw [List.filter_eq_nil_iff]
    intro call member
    rw [← h] at member
    simpa using (List.mem_filter.mp member).2
  simp [freed, none]

/-- Takes the place that has waited longest, none where nothing waits. A place to keep stays with
its calls; any other goes, and the places it frees wait next. -/
def step (keep : Nat → Bool) (c : Cascade) : Option Cascade :=
  match c.queue.pop? with
  | none => none
  | some (place, queue) =>
    if keep place then some { c with queue }
    else some ⟨c.callsWithout place, queue.extend (c.freed place), c.removed.insert place⟩

/-- A step leaves fewer calls, or as many and fewer places waiting. -/
theorem step_shrinks {keep : Nat → Bool} {c d : Cascade} (h : c.step keep = some d) :
    d.calls.length < c.calls.length ∨
      d.calls.length = c.calls.length ∧ d.queue.size < c.queue.size := by
  rw [step] at h
  split at h
  · contradiction
  · next place queue taken =>
    have shorter : queue.size < c.queue.size := by
      rw [WorkQueue.size_pop taken]
      exact Nat.lt_succ_self _
    split at h
    · cases h
      exact .inr ⟨rfl, shorter⟩
    · cases h
      rcases Nat.lt_or_eq_of_le (List.length_filter_le (·.1 ≠ place) c.calls) with fewer | same
      · exact .inl fewer
      · have unchanged : c.callsWithout place = c.calls := List.filter_sublist.eq_of_length same
        refine .inr ⟨same, ?_⟩
        rw [freed_eq_nil unchanged]
        exact shorter

/-- Steps until nothing waits. -/
def run (keep : Nat → Bool) (c : Cascade) : Cascade :=
  match _step : c.step keep with
  | none => c
  | some next => next.run keep
termination_by (c.calls.length, c.queue.size)
decreasing_by exact Prod.lex_def.mpr (step_shrinks _step)

/-- The start: every place without a caller waits. -/
def ofGraph (g : CallGraph) (size : Nat) : Cascade :=
  ⟨g.calls, WorkQueue.empty.extend (g.order.filter fun place => (g.callers place).isEmpty),
    .empty size⟩

end Cascade

namespace Program

/-- The places that go when only the function named `entry` may stay uncalled. -/
def uncalledPlaces (p : Program) (entry : String) : BitSet :=
  ((Cascade.ofGraph p.callGraph p.size).run fun place => p.position? entry = some place).removed

/-- Removes every function that `entry` and the cycles do not lead to. -/
def dropUncalled (p : Program) (entry : String) : Program := p.without (p.uncalledPlaces entry)

end Program
end ProcessCalculus
