import ProcessCalculus.Program

/-!
Function definitions as they are written, and the program that a list of them declares.
-/
namespace ProcessCalculus

/-- A function definition: its name, its formal parameters and its statements. -/
structure Definition where
  name : String
  formals : List String
  body : Block
deriving DecidableEq

/-- The function that a definition declares. -/
def Definition.function (d : Definition) : Function :=
  .ofBody d.name (d.formals.map Parameter.shared) d.body

/-- The program of some definitions, the first of each name. -/
def Program.ofDefinitions (ds : List Definition) : Program :=
  ofFunctions (ds.map Definition.function)

end ProcessCalculus
