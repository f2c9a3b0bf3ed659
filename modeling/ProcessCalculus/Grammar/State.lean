import ProcessCalculus.Definition
import ProcessCalculus.Token.Basic

/-!
Reading definitions token by token. A state records all that has been read and where in the grammar
the next token stands, so the machine never backtracks: a token that no step accepts can continue no
program that begins with the tokens before it.
-/
namespace ProcessCalculus.Grammar

/-- Progress through a list of names in brackets; the names read are in reverse. -/
inductive NameList
  | opening
  | first
  | afterName (read : List String)
  | afterComma (read : List String)
deriving DecidableEq

/-- One token further: a list still open, or its names where the token closes it. -/
def NameList.step : NameList → Token → Option (NameList ⊕ List String)
  | .opening, .mark .opening => some (.inl .first)
  | .first, .identifier name => some (.inl (.afterName [name]))
  | .first, .mark .closing => some (.inr [])
  | .afterName read, .mark .comma => some (.inl (.afterComma read))
  | .afterName read, .mark .closing => some (.inr read.reverse)
  | .afterComma read, .identifier name => some (.inl (.afterName (name :: read)))
  | _, _ => none

/-- Progress through a statement that holds no other statement, up to its semicolon. -/
inductive Clause
  | target (operation : Operation)
  | channelName
  | channelEquals (name : String)
  | channelKeyword (name : String)
  | channelLabel (name : String)
  | channelComma (name label : String)
  | channelCapacity (name label : String)
  | callee (mode : Transfer)
  | arguments (mode : Transfer) (callee : String) (list : NameList)
  | lockName
  | lockKind (name : String)
  | complete (statement : Statement)
deriving DecidableEq

/-- The clause that a keyword starts. -/
def Clause.start? : Keyword → Option Clause
  | .close => some (.target .close)
  | .send => some (.target .send)
  | .receive => some (.target .receive)
  | .newMemory => some (.target .newMemory)
  | .read => some (.target .read)
  | .write => some (.target .write)
  | .lock => some (.target .lock)
  | .unlock => some (.target .unlock)
  | .readLock => some (.target .readLock)
  | .readUnlock => some (.target .readUnlock)
  | .tau => some (.complete .tau)
  | .bind => some .channelName
  | .call => some (.callee .call)
  | .spawn => some (.callee .spawn)
  | .newLock => some .lockName
  | _ => none

/-- One token further within a clause. -/
def Clause.step : Clause → Token → Option Clause
  | .target operation, .identifier x => some (.complete (.act (.perform operation x)))
  | .channelName, .identifier x => some (.channelEquals x)
  | .channelEquals x, .mark .equals => some (.channelKeyword x)
  | .channelKeyword x, .keyword .newChannel => some (.channelLabel x)
  | .channelLabel x, .identifier label => some (.channelComma x label)
  | .channelComma x label, .mark .comma => some (.channelCapacity x label)
  | .channelCapacity x label, .number n => some (.complete (.act (.newChannel x label n)))
  | .callee mode, .identifier f => some (.arguments mode f .opening)
  | .arguments mode f list, t =>
    match list.step t with
    | some (.inl list) => some (.arguments mode f list)
    | some (.inr names) => some (.complete (.invoke mode f (names.map Parameter.shared)))
    | none => none
  | .lockName, .identifier x => some (.lockKind x)
  | .lockKind x, .keyword .mutex => some (.complete (.act (.perform .newMutex x)))
  | .lockKind x, .keyword .rwMutex => some (.complete (.act (.perform .newRWMutex x)))
  | _, _ => none

/-- What surrounds a block: the definitions, statements and cases before it, in reverse, and the
block that its statement stands in. -/
inductive Context
  | body (before : List Definition) (name : String) (formals : List String)
  | thenBranch (outer : Context) (before : List Statement)
  | elseBranch (outer : Context) (before : List Statement) (thenBody : Block)
  | case (outer : Context) (before : List Statement) (cases : List Block)
deriving DecidableEq

/-- Progress through a program; definitions and statements read are in reverse. -/
inductive State
  | start
  | name (before : List Definition)
  | formals (before : List Definition) (name : String) (list : NameList)
  | colon (before : List Definition) (name : String) (formals : List String)
  | block (context : Context) (read : List Statement)
  | clause (context : Context) (read : List Statement) (clause : Clause)
  | cases (context : Context) (read : List Statement)
deriving DecidableEq

/-- The state after a keyword that ends a block and so continues what surrounds it. -/
def Context.leave? : Context → Block → Keyword → Option State
  | .body before f xs, stmts, .define => some (.name (⟨f, xs, stmts⟩ :: before))
  | .thenBranch outer before, stmts, .otherwise => some (.block (.elseBranch outer before stmts) [])
  | .elseBranch outer before thenBody, stmts, .endIf =>
    some (.clause outer before (.complete (.branch none thenBody stmts)))
  | .case outer before cases, stmts, .case =>
    some (.block (.case outer before (stmts :: cases)) [])
  | .case outer before cases, stmts, .endSelect =>
    some (.clause outer before (.complete (.select (stmts :: cases).reverse)))
  | _, _, _ => none

/-- The state after a keyword within a block: a statement starts, or a block with statements ends.
-/
def Context.turn? (context : Context) (read : List Statement) : Keyword → Option State
  | .cond => some (.block (.thenBranch context read) [])
  | .select => some (.cases context read)
  | k =>
    match Clause.start? k with
    | some c => some (.clause context read c)
    | none => if read = [] then none else context.leave? read.reverse k

namespace State

/-- One token further, none where the token cannot come next. -/
def step : State → Token → Option State
  | .start, .keyword .define => some (.name [])
  | .name before, .identifier f => some (.formals before f .opening)
  | .formals before f list, t =>
    match list.step t with
    | some (.inl list) => some (.formals before f list)
    | some (.inr xs) => some (.colon before f xs)
    | none => none
  | .colon before f xs, .mark .colon => some (.block (.body before f xs) [])
  | .block context read, .keyword k => context.turn? read k
  | .clause context read (.complete s), .mark .semicolon => some (.block context (s :: read))
  | .clause context read c, t => (c.step t).map (.clause context read)
  | .cases context read, .keyword .case => some (.block (.case context read []) [])
  | .cases context read, .keyword .endSelect =>
    some (.clause context read (.complete (.select [])))
  | _, _ => none

/-- The definitions read, where a program may end here. -/
def finish? : State → Option (List Definition)
  | .block (.body before f xs) (s :: read) =>
    some (⟨f, xs, (s :: read).reverse⟩ :: before).reverse
  | _ => none

/-- Reads tokens up to the first that cannot come next: the state before it and the tokens from
it on. -/
def advance {α : Type} (token : α → Token) : State → List α → State × List α
  | s, [] => (s, [])
  | s, t :: ts =>
    match s.step (token t) with
    | some next => next.advance token ts
    | none => (s, t :: ts)

end State
end ProcessCalculus.Grammar
