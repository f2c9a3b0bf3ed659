import ProcessCalculus.Statement.Communication
import ProcessCalculus.Statement.Render

/-!
Functions under construction. A function keeps the bodies that were set aside while the branches of
a nested conditional are written, the innermost first, and a flag that says whether its present
body communicates. Every operation here keeps that flag in step with the body.
-/
namespace ProcessCalculus

/-- What a function does not have. -/
inductive LookupError
  | noParameter (function formal : String)
  | nothingSaved (function : String)
deriving DecidableEq

def LookupError.message : LookupError → String
  | .noParameter function formal => "parameter " ++ formal ++ " not found in " ++ function
  | .nothingSaved function => "no statements put away in " ++ function

structure Function where
  name : String
  parameters : List Parameter
  body : Block
  communicates : Bool
  saved : List Block
deriving DecidableEq

namespace Function

/-- A function without parameters or statements. -/
def empty (name : String) : Function := ⟨name, [], [], false, []⟩

def writtenName (f : Function) : String := Name.written f.name

/-- Adds a parameter unless its formal name is taken. -/
def addParameter (f : Function) (p : Parameter) : Function :=
  if p.formal ∈ Parameter.formals f.parameters then f
  else { f with parameters := f.parameters ++ [p] }

def addParameters (f : Function) (ps : List Parameter) : Function :=
  ps.foldl addParameter f

/-- The parameter of a formal name. -/
def parameter (f : Function) (formal : String) : Except LookupError Parameter :=
  match f.parameters.find? (·.formal = formal) with
  | some p => .ok p
  | none => .error (.noParameter f.name formal)

/-- Appends a statement. An inaction right after an inaction adds nothing. -/
def push (f : Function) (s : Statement) : Function :=
  if s = .tau ∧ f.body.getLast? = some .tau then f
  else { f with body := f.body ++ [s], communicates := f.communicates || s.communicates }

def pushAll (f : Function) (ss : Block) : Function := ss.foldl push f

/-- Replaces the body, keeping its statements exactly as given. -/
def withBody (f : Function) (body : Block) : Function :=
  { f with body, communicates := Block.communicates body }

/-- A function of a complete body. -/
def ofBody (name : String) (parameters : List Parameter) (body : Block) : Function :=
  ((empty name).addParameters parameters).withBody body

/-- Sets the body aside and starts an empty one, for a branch of a nested conditional. -/
def openBranch (f : Function) : Function :=
  { f with body := [], communicates := false, saved := f.body :: f.saved }

/-- Ends the branch that was opened last: the body set aside for it returns, and the statements
of the branch are handed out. -/
def closeBranch (f : Function) : Except LookupError (Block × Function) :=
  match f.saved with
  | [] => .error (.nothingSaved f.name)
  | body :: saved => .ok (f.body, { f.withBody body with saved })

/-- Ends the two branches opened last, the alternative first, and appends the conditional they
make. Where only one branch is open it ends too, and its statements are lost. -/
def closeConditional (f : Function) : Except LookupError Unit × Function :=
  match f.closeBranch with
  | .error e => (.error e, f)
  | .ok (elseBody, f) =>
    match f.closeBranch with
    | .error e => (.error e, f)
    | .ok (thenBody, f) => (.ok (), f.push (.branch none thenBody elseBody))

/-- The definition of a function. An empty body is written as an inaction. -/
def render (f : Function) : String :=
  "def " ++ f.writtenName ++ "(" ++ ", ".intercalate (Parameter.formals f.parameters) ++ "):\n" ++
    Block.renderLines (if f.body = [] then [.tau] else f.body)

@[simp] theorem name_addParameter (f : Function) (p : Parameter) :
    (f.addParameter p).name = f.name := by
  rw [addParameter]
  split <;> rfl

@[simp] theorem name_addParameters (f : Function) (ps : List Parameter) :
    (f.addParameters ps).name = f.name := by
  induction ps generalizing f with
  | nil => rfl
  | cons p ps ih => exact (ih _).trans (name_addParameter f p)

@[simp] theorem name_withBody (f : Function) (b : Block) : (f.withBody b).name = f.name := rfl

@[simp] theorem name_push (f : Function) (s : Statement) : (f.push s).name = f.name := by
  rw [push]
  split <;> rfl

@[simp] theorem name_pushAll (f : Function) (ss : Block) : (f.pushAll ss).name = f.name := by
  induction ss generalizing f with
  | nil => rfl
  | cons s ss ih => exact (ih _).trans (name_push f s)

end Function
end ProcessCalculus
