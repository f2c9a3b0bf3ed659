import ProcessCalculus.Grammar.State

/-!
What may come next. Every state has the list of patterns whose tokens it accepts, with the end of
the input among them where a program may end.
-/
namespace ProcessCalculus.Grammar

/-- A kind of token, or the end of the input. -/
inductive Pattern
  | mark (mark : Mark)
  | keyword (keyword : Keyword)
  | identifier
  | number
  | endOfInput
deriving DecidableEq

namespace Pattern

/-- The pattern as messages show it: a fixed token stands in two quotes on each side. -/
def label : Pattern → String
  | .mark m => "''" ++ m.char.toString ++ "''"
  | .keyword k => "''" ++ k.text ++ "''"
  | .identifier => "identifier"
  | .number => "number"
  | .endOfInput => "end of input"

/-- Whether the token is of this kind. -/
def covers : Pattern → Token → Bool
  | .mark m, .mark n => m = n
  | .keyword k, .keyword l => k = l
  | .identifier, .identifier _ => true
  | .number, .number _ => true
  | _, _ => false

end Pattern

def NameList.expected : NameList → List Pattern
  | .opening => [.mark .opening]
  | .first => [.identifier, .mark .closing]
  | .afterName _ => [.mark .comma, .mark .closing]
  | .afterComma _ => [.identifier]

def Clause.expected : Clause → List Pattern
  | .target _ => [.identifier]
  | .channelName => [.identifier]
  | .channelEquals _ => [.mark .equals]
  | .channelKeyword _ => [.keyword .newChannel]
  | .channelLabel _ => [.identifier]
  | .channelComma _ _ => [.mark .comma]
  | .channelCapacity _ _ => [.number]
  | .callee _ => [.identifier]
  | .arguments _ _ list => list.expected
  | .lockName => [.identifier]
  | .lockKind _ => [.keyword .mutex, .keyword .rwMutex]
  | .complete _ => [.mark .semicolon]

/-- The keywords that start a statement. -/
def statementStarts : List Keyword :=
  [.send, .receive, .tau, .bind, .close, .call, .spawn, .newMemory, .read, .write, .newLock,
    .lock, .unlock, .readLock, .readUnlock, .cond, .select]

/-- What may follow the last statement of a block. -/
def Context.closers : Context → List Pattern
  | .body _ _ _ => [.keyword .define, .endOfInput]
  | .thenBranch _ _ => [.keyword .otherwise]
  | .elseBranch _ _ _ => [.keyword .endIf]
  | .case _ _ _ => [.keyword .case, .keyword .endSelect]

def State.expected : State → List Pattern
  | .start => [.keyword .define]
  | .name _ => [.identifier]
  | .formals _ _ list => list.expected
  | .colon _ _ _ => [.mark .colon]
  | .block context read =>
    statementStarts.map .keyword ++ (if read = [] then [] else context.closers)
  | .clause _ _ c => c.expected
  | .cases _ _ => [.keyword .case, .keyword .endSelect]

end ProcessCalculus.Grammar
