import ProcessCalculus.CallGraph.Discovery

/-!
Removal of silent functions. A body is quiet where it holds nothing but inactions, calls and spawns,
looking through the branches of conditionals; a function is silent where every function it leads to
has a quiet body. A policy is asked about each silent function and decides what is removed.
-/
namespace ProcessCalculus

mutual

/-- Whether a statement shows nothing by itself. A choice always shows. -/
def Statement.quiet : Statement → Bool
  | .tau => true
  | .act _ => false
  | .invoke _ _ _ => true
  | .branch _ thenBody elseBody => Block.quiet thenBody && Block.quiet elseBody
  | .select _ => false

/-- Whether every statement of a block is quiet. -/
def Block.quiet : List Statement → Bool
  | [] => true
  | s :: rest => s.quiet && Block.quiet rest

end

theorem Block.quiet_eq_all (b : Block) : Block.quiet b = b.all Statement.quiet := by
  induction b with
  | nil => rfl
  | cons s b ih => simp [Block.quiet, ih]

namespace CallGraph

/-- One round: every call of a place outside the set takes its caller out of it. -/
def spreadOnce (g : CallGraph) (silent : BitSet) : BitSet :=
  g.calls.foldl (fun s call => if s.contains call.2 then s else s.erase call.1) silent

/-- Rounds until one takes nothing out of the set. -/
def spread (g : CallGraph) (silent : BitSet) : BitSet :=
  let next := g.spreadOnce silent
  if next.count < silent.count then g.spread next else next
termination_by silent.count

end CallGraph

namespace Program

/-- The places of functions with a quiet body. -/
def quietPlaces (p : Program) : BitSet :=
  p.functions.zipIdx.foldl (fun s (f, i) => if Block.quiet f.body then s.insert i else s)
    (.empty p.size)

/-- The places of silent functions. -/
def silentPlaces (p : Program) : BitSet := p.callGraph.spread p.quietPlaces

/-- The silent functions with their places, in the order of declaration. -/
def silentFunctions (p : Program) : List (Function × Nat) :=
  let silent := p.silentPlaces
  p.functions.zipIdx.filter fun (_, i) => silent.contains i

/-- Asks the policy about every silent function, in the order of declaration, and removes those
that it gives up. Answers the names removed as well. -/
def dropSilent {m : Type → Type} [Monad m] (p : Program) (policy : Function → m Bool) :
    m (List String × Program) := do
  let removed ← p.silentFunctions.filterM fun (f, _) => policy f
  let places := removed.foldl (fun s (_, i) => s.insert i) (BitSet.empty p.size)
  return (removed.map (·.1.name), p.without places)

/-- Removes the silent functions for which the policy holds. -/
def withoutSilent (p : Program) (policy : Function → Bool) : Program :=
  (Id.run (p.dropSilent fun f => pure (policy f))).2

end Program
end ProcessCalculus
