import ProcessCalculus.CallGraph.Basic

/-!
Discovery of a call graph, depth first from each function in the order of declaration. A call is
recorded after everything its callee leads to has been discovered.
-/
namespace ProcessCalculus.CallGraph

/-- A function whose calls are being followed, with the callees not yet dealt with. The outermost
frame has no caller: its callees are the places to start from. -/
structure Frame where
  caller : Option Nat
  pending : List Nat

/-- The work left in a stack of frames while no place is discovered. -/
def work (stack : List Frame) : Nat := stack.foldr (fun f n => f.pending.length + 1 + n) 0

/-- Follows the frames, the innermost first; `fresh` holds the places not discovered yet. -/
def discover (callees : Nat → List Nat) (fresh : List Nat) (g : CallGraph) :
    List Frame → CallGraph
  | [] => g
  | ⟨_, []⟩ :: stack => discover callees fresh g stack
  | ⟨caller, place :: pending⟩ :: stack =>
    if place ∈ fresh then
      discover callees (fresh.erase place) (g.addPlace place)
        (⟨some place, callees place⟩ :: ⟨caller, place :: pending⟩ :: stack)
    else
      let found := match caller with
        | some c => g.addCall c place
        | none => g
      discover callees fresh found (⟨caller, pending⟩ :: stack)
termination_by stack => (fresh.length, work stack)
decreasing_by
  · exact Prod.Lex.right _ (by simp [work])
  · next unseen =>
    apply Prod.Lex.left
    rw [List.length_erase_of_mem unseen]
    exact Nat.sub_lt (List.length_pos_of_mem unseen) Nat.zero_lt_one
  · exact Prod.Lex.right _ (by simp [work])

end ProcessCalculus.CallGraph

namespace ProcessCalculus

/-- The call graph of a program. -/
def Program.callGraph (p : Program) : CallGraph :=
  CallGraph.discover p.callees (List.range p.size) .empty [⟨none, List.range p.size⟩]

end ProcessCalculus
