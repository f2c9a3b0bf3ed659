/-!
Parameters of calls and definitions. A parameter pairs the name at the call with the name inside
the called function.
-/
namespace ProcessCalculus

/-- An argument at a call site, `actual`, bound to the formal parameter `formal` of the callee. -/
structure Parameter where
  actual : String
  formal : String
deriving DecidableEq

namespace Parameter

/-- A parameter of one name on both sides of the call. -/
def shared (name : String) : Parameter := ⟨name, name⟩

/-- The binding in brackets, from the caller's side to the callee's. -/
def render (p : Parameter) : String :=
  "[" ++ p.actual ++ " → " ++ p.formal ++ "]"

/-- The names that the caller passes. -/
def actuals (ps : List Parameter) : List String := ps.map actual

/-- The names that the callee receives. -/
def formals (ps : List Parameter) : List String := ps.map formal

@[simp] theorem actuals_map_shared (names : List String) : actuals (names.map shared) = names := by
  simp [actuals, Function.comp_def, shared]

@[simp] theorem formals_map_shared (names : List String) : formals (names.map shared) = names := by
  simp [formals, Function.comp_def, shared]

end Parameter
end ProcessCalculus
