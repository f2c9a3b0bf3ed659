import ProcessCalculus.Program
import ProcessCalculus.Statement.Targets

/-!
Call graphs. The vertices are the places of a program's functions, each numbered by its rank in the
order of discovery, and a pair of places is a call or spawn from the first to the second.
-/
namespace ProcessCalculus

/-- The place of each defined function that the function at this place calls or spawns, in the
order of the text, repetitions included. -/
def Program.callees (p : Program) (place : Nat) : List Nat :=
  match p.functions[place]? with
  | some f => (Block.targets f.body).filterMap p.position?
  | none => []

/-- Places in the order of discovery, and the calls between them in the order they were found. -/
structure CallGraph where
  order : List Nat
  calls : List (Nat × Nat)
deriving DecidableEq

namespace CallGraph

def empty : CallGraph := ⟨[], []⟩

/-- Gives a place the next number. -/
def addPlace (g : CallGraph) (place : Nat) : CallGraph := { g with order := g.order ++ [place] }

/-- Records a call unless it is known. -/
def addCall (g : CallGraph) (caller callee : Nat) : CallGraph :=
  if (caller, callee) ∈ g.calls then g else { g with calls := g.calls ++ [(caller, callee)] }

/-- The places called from a place. -/
def callees (g : CallGraph) (place : Nat) : List Nat :=
  (g.calls.filter (·.1 = place)).map (·.2)

/-- The places that call a place. -/
def callers (g : CallGraph) (place : Nat) : List Nat :=
  (g.calls.filter (·.2 = place)).map (·.1)

/-- The number of nodes. -/
def size (g : CallGraph) : Nat := g.order.length

/-- The place of the node with that number. -/
def place? (g : CallGraph) (node : Nat) : Option Nat := g.order[node]?

/-- The number of the node at that place. -/
def node? (g : CallGraph) (place : Nat) : Option Nat := g.order.idxOf? place

/-- The nodes called from a node. -/
def successors (g : CallGraph) (node : Nat) : List Nat :=
  match g.place? node with
  | some place => (g.callees place).filterMap g.node?
  | none => []

/-- The nodes that call a node. -/
def predecessors (g : CallGraph) (node : Nat) : List Nat :=
  match g.place? node with
  | some place => (g.callers place).filterMap g.node?
  | none => []

@[simp] theorem mem_callees {g : CallGraph} {a b : Nat} : b ∈ g.callees a ↔ (a, b) ∈ g.calls := by
  simp [callees]

@[simp] theorem mem_callers {g : CallGraph} {a b : Nat} : a ∈ g.callers b ↔ (a, b) ∈ g.calls := by
  simp [callers]

@[simp] theorem order_addCall (g : CallGraph) (a b : Nat) : (g.addCall a b).order = g.order := by
  rw [addCall]
  split <;> rfl

theorem nodup_calls_addCall {g : CallGraph} (distinct : g.calls.Nodup) (a b : Nat) :
    (g.addCall a b).calls.Nodup := by
  rw [addCall]
  split
  · exact distinct
  · next fresh =>
    rw [List.nodup_append]
    refine ⟨distinct, by simp, ?_⟩
    intro c hc d hd same
    rw [List.mem_singleton.mp hd] at same
    exact fresh (same ▸ hc)

end CallGraph
end ProcessCalculus
