import ProcessCalculus.CallGraph.Basic

/-!
The text of a call graph: its nodes in order, each with the functions that call it and the functions
it calls, where there are any.
-/
namespace ProcessCalculus.CallGraph

/-- The written name of the function at a place. -/
def nameAt (p : Program) (place : Nat) : String :=
  match p.functions[place]? with
  | some f => f.writtenName
  | none => ""

/-- A line of names behind a heading, none where there are no names. -/
def renderNames (heading : String) (names : List String) : String :=
  if names = [] then "" else "\t" ++ heading ++ ", ".intercalate names ++ "\n"

/-- The lines of one node. -/
def renderPlace (g : CallGraph) (p : Program) (place : Nat) : String :=
  nameAt p place ++ ":\n" ++
    renderNames "FROM → " ((g.callers place).map (nameAt p)) ++
    renderNames "TO   ⇒ " ((g.callees place).map (nameAt p))

/-- The text of the graph with the function names of a program. -/
def render (g : CallGraph) (p : Program) : String := String.join (g.order.map (g.renderPlace p))

end ProcessCalculus.CallGraph
