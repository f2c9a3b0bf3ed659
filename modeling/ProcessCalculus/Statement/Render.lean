import ProcessCalculus.Name
import ProcessCalculus.Statement.Basic

/-!
The text of statements. Functions, channel labels, memory cells and locks in use are written by
their written name; channels and declared variables are written as they are.
-/
namespace ProcessCalculus

def Operation.render (operation : Operation) (target : String) : String :=
  match operation with
  | .close => "close " ++ target
  | .send => "send " ++ target
  | .receive => "recv " ++ target
  | .newMemory => "letmem " ++ target
  | .read => "read " ++ Name.written target
  | .write => "write " ++ Name.written target
  | .newMutex => "letsync " ++ target ++ " mutex"
  | .lock => "lock " ++ Name.written target
  | .unlock => "unlock " ++ Name.written target
  | .newRWMutex => "letsync " ++ target ++ " rwmutex"
  | .readLock => "rlock " ++ Name.written target
  | .readUnlock => "runlock " ++ Name.written target

def Action.render : Action → String
  | .newChannel name label capacity =>
    "let " ++ name ++ " = newchan " ++ Name.written label ++ ", " ++ toString capacity.toInt
  | .perform operation target => operation.render target

def Transfer.render : Transfer → String
  | .call => "call"
  | .spawn => "spawn"

/-- The opening words of a conditional. -/
def Statement.opening : Option String → String
  | none => "if "
  | some condition => "ifFor (int " ++ condition ++ ") then "

mutual

/-- The text of a statement. The cases of a choice start lines of their own, since a choice
stands in a function body as a rule. -/
def Statement.render : Statement → String
  | .tau => "tau"
  | .act action => action.render
  | .invoke mode callee arguments =>
    mode.render ++ " " ++ Name.written callee ++
      "(" ++ ", ".intercalate (Parameter.actuals arguments) ++ ")"
  | .branch loop thenBody elseBody =>
    Statement.opening loop ++ Block.renderInline thenBody ++ "else " ++
      Block.renderInline elseBody ++ "endif"
  | .select cases => "select" ++ Statement.renderCases cases ++ "\n    endselect"

/-- The statements of one branch, each closed by a semicolon and a blank. -/
def Block.renderInline : List Statement → String
  | [] => ""
  | s :: rest => s.render ++ "; " ++ Block.renderInline rest

/-- The statements of one case, each behind a blank and closed by a semicolon. -/
def Block.renderCase : List Statement → String
  | [] => ""
  | s :: rest => " " ++ s.render ++ ";" ++ Block.renderCase rest

def Statement.renderCases : List (List Statement) → String
  | [] => ""
  | body :: rest => "\n      case" ++ Block.renderCase body ++ Statement.renderCases rest

end

/-- The statements of a function body, a line each. -/
def Block.renderLines (body : Block) : String :=
  String.join (body.map fun s => "    " ++ s.render ++ ";\n")

end ProcessCalculus
