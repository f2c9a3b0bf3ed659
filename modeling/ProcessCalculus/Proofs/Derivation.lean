import ProcessCalculus.Definition
import ProcessCalculus.Token.Basic

/-!
Derivation trees of the grammar, one constructor for each production. A tree determines the tokens
that it derives and the definitions that it stands for, and the definitions determine the tree.

    program    = definition | program definition
    definition = def IDENT parameters : block
    parameters = ( ) | ( names )
    names      = IDENT | names , IDENT
    block      = statement ; | block statement ;
    cases      = | cases case block
    statement  = tau | WORD IDENT | letsync IDENT mutex | letsync IDENT rwmutex
               | let IDENT = newchan IDENT , INT | call IDENT parameters | spawn IDENT parameters
               | if block else block endif | select cases endselect
-/
namespace ProcessCalculus

/-- The word that an action on one name starts with. -/
def Operation.word : Operation → Keyword
  | .close => .close
  | .send => .send
  | .receive => .receive
  | .newMemory => .newMemory
  | .read => .read
  | .write => .write
  | .newMutex => .newLock
  | .lock => .lock
  | .unlock => .unlock
  | .newRWMutex => .newLock
  | .readLock => .readLock
  | .readUnlock => .readUnlock

/-- The kind that a new lock is declared with, nothing for other actions. -/
def Operation.kind : Operation → List Token
  | .newMutex => [.keyword .mutex]
  | .newRWMutex => [.keyword .rwMutex]
  | _ => []

def Action.tokens : Action → List Token
  | .newChannel name label capacity =>
    [.keyword .bind, .identifier name, .mark .equals, .keyword .newChannel, .identifier label,
      .mark .comma, .number capacity]
  | .perform operation target =>
    .keyword operation.word :: .identifier target :: operation.kind

def Transfer.word : Transfer → Keyword
  | .call => .call
  | .spawn => .spawn

namespace Grammar

inductive NameTree
  | one (name : String)
  | more (before : NameTree) (name : String)

inductive ParameterTree
  | none
  | some (names : NameTree)

mutual

inductive StatementTree
  | tau
  | act (action : Action)
  | invoke (mode : Transfer) (callee : String) (arguments : ParameterTree)
  | branch (thenBody elseBody : BlockTree)
  | select (cases : CaseTree)

inductive BlockTree
  | one (statement : StatementTree)
  | more (before : BlockTree) (statement : StatementTree)

inductive CaseTree
  | none
  | more (before : CaseTree) (body : BlockTree)

end

structure DefinitionTree where
  name : String
  parameters : ParameterTree
  body : BlockTree

inductive ProgramTree
  | one (definition : DefinitionTree)
  | more (before : ProgramTree) (definition : DefinitionTree)

/-! The tokens that a tree derives. -/

def NameTree.tokens : NameTree → List Token
  | .one x => [.identifier x]
  | .more before x => before.tokens ++ [.mark .comma, .identifier x]

def ParameterTree.tokens : ParameterTree → List Token
  | .none => [.mark .opening, .mark .closing]
  | .some names => .mark .opening :: names.tokens ++ [.mark .closing]

mutual

def StatementTree.tokens : StatementTree → List Token
  | .tau => [.keyword .tau]
  | .act a => a.tokens
  | .invoke m f xs => .keyword m.word :: .identifier f :: xs.tokens
  | .branch t e =>
    .keyword .cond :: t.tokens ++ .keyword .otherwise :: e.tokens ++ [.keyword .endIf]
  | .select cs => .keyword .select :: cs.tokens ++ [.keyword .endSelect]

def BlockTree.tokens : BlockTree → List Token
  | .one s => s.tokens ++ [.mark .semicolon]
  | .more before s => before.tokens ++ (s.tokens ++ [.mark .semicolon])

def CaseTree.tokens : CaseTree → List Token
  | .none => []
  | .more before b => before.tokens ++ .keyword .case :: b.tokens

end

def DefinitionTree.tokens (d : DefinitionTree) : List Token :=
  .keyword .define :: .identifier d.name :: d.parameters.tokens ++ .mark .colon :: d.body.tokens

def ProgramTree.tokens : ProgramTree → List Token
  | .one d => d.tokens
  | .more before d => before.tokens ++ d.tokens

/-! What a tree stands for. -/

def NameTree.names : NameTree → List String
  | .one x => [x]
  | .more before x => before.names ++ [x]

def ParameterTree.names : ParameterTree → List String
  | .none => []
  | .some xs => xs.names

mutual

def StatementTree.statement : StatementTree → Statement
  | .tau => .tau
  | .act a => .act a
  | .invoke m f xs => .invoke m f (xs.names.map Parameter.shared)
  | .branch t e => .branch none t.block e.block
  | .select cs => .select cs.blocks

def BlockTree.block : BlockTree → Block
  | .one s => [s.statement]
  | .more before s => before.block ++ [s.statement]

def CaseTree.blocks : CaseTree → List Block
  | .none => []
  | .more before b => before.blocks ++ [b.block]

end

def DefinitionTree.definition (d : DefinitionTree) : Definition :=
  ⟨d.name, d.parameters.names, d.body.block⟩

def ProgramTree.definitions : ProgramTree → List Definition
  | .one d => [d.definition]
  | .more before d => before.definitions ++ [d.definition]

/-- The derivations of a list of tokens. -/
def Derivation (ts : List Token) : Type := {tree : ProgramTree // tree.tokens = ts}

/-! A tree is determined by what it stands for. -/

theorem NameTree.names_ne_nil (xs : NameTree) : xs.names ≠ [] := by
  cases xs <;> simp [names]

theorem BlockTree.block_ne_nil (b : BlockTree) : b.block ≠ [] := by
  cases b <;> simp [block]

theorem ProgramTree.definitions_ne_nil (p : ProgramTree) : p.definitions ≠ [] := by
  cases p <;> simp [definitions]

theorem NameTree.names_inj {xs ys : NameTree} (same : xs.names = ys.names) : xs = ys := by
  induction xs generalizing ys with
  | one x =>
    cases ys with
    | one y => simpa [names] using same
    | more before y => simp [names, names_ne_nil, List.singleton_eq_append_iff] at same
  | more before x ih =>
    cases ys with
    | one y => simp [names, names_ne_nil, List.append_eq_singleton_iff] at same
    | more before' y =>
      obtain ⟨first, last⟩ := List.append_inj' same rfl
      rw [ih first, List.singleton_inj.mp last]

theorem ParameterTree.names_inj {xs ys : ParameterTree} (same : xs.names = ys.names) : xs = ys := by
  cases xs with
  | none =>
    cases ys with
    | none => rfl
    | some ys => exact absurd same.symm ys.names_ne_nil
  | some xs =>
    cases ys with
    | none => exact absurd same xs.names_ne_nil
    | some ys => rw [NameTree.names_inj same]

theorem map_shared_inj {xs ys : List String} (same : xs.map Parameter.shared = ys.map .shared) :
    xs = ys := by
  rw [← Parameter.actuals_map_shared xs, same, Parameter.actuals_map_shared]

mutual

theorem StatementTree.statement_inj :
    ∀ {s u : StatementTree}, s.statement = u.statement → s = u
  | .tau, u, same => by cases u <;> simp_all [StatementTree.statement]
  | .act a, u, same => by cases u <;> simp_all [StatementTree.statement]
  | .invoke m f xs, u, same => by
    cases u with
    | invoke n g ys =>
      simp only [StatementTree.statement, Statement.invoke.injEq] at same
      obtain ⟨rfl, rfl, arguments⟩ := same
      rw [ParameterTree.names_inj (map_shared_inj arguments)]
    | _ => simp [StatementTree.statement] at same
  | .branch t e, u, same => by
    cases u with
    | branch t' e' =>
      simp only [StatementTree.statement, Statement.branch.injEq, true_and] at same
      rw [BlockTree.block_inj same.1, BlockTree.block_inj same.2]
    | _ => simp [StatementTree.statement] at same
  | .select cs, u, same => by
    cases u with
    | select ds =>
      simp only [StatementTree.statement, Statement.select.injEq] at same
      rw [CaseTree.blocks_inj same]
    | _ => simp [StatementTree.statement] at same

theorem BlockTree.block_inj : ∀ {b d : BlockTree}, b.block = d.block → b = d
  | .one s, d, same => by
    cases d with
    | one u =>
      rw [StatementTree.statement_inj (List.singleton_inj.mp same)]
    | more before u =>
      simp [BlockTree.block, BlockTree.block_ne_nil, List.singleton_eq_append_iff] at same
  | .more before s, d, same => by
    cases d with
    | one u => simp [BlockTree.block, BlockTree.block_ne_nil, List.append_eq_singleton_iff] at same
    | more before' u =>
      obtain ⟨first, last⟩ := List.append_inj' same rfl
      rw [BlockTree.block_inj first, StatementTree.statement_inj (List.singleton_inj.mp last)]

theorem CaseTree.blocks_inj : ∀ {cs ds : CaseTree}, cs.blocks = ds.blocks → cs = ds
  | .none, ds, same => by
    cases ds with
    | none => rfl
    | more before b => simp [CaseTree.blocks] at same
  | .more before b, ds, same => by
    cases ds with
    | none => simp [CaseTree.blocks] at same
    | more before' d =>
      obtain ⟨first, last⟩ := List.append_inj' same rfl
      rw [CaseTree.blocks_inj first, BlockTree.block_inj (List.singleton_inj.mp last)]

end

theorem DefinitionTree.definition_inj {d e : DefinitionTree} (same : d.definition = e.definition) :
    d = e := by
  simp only [definition, Definition.mk.injEq] at same
  obtain ⟨name, parameters, body⟩ := same
  cases d
  cases e
  simp only [mk.injEq]
  exact ⟨name, ParameterTree.names_inj parameters, BlockTree.block_inj body⟩

theorem ProgramTree.definitions_inj {p q : ProgramTree} (same : p.definitions = q.definitions) :
    p = q := by
  induction p generalizing q with
  | one d =>
    cases q with
    | one e => rw [DefinitionTree.definition_inj (List.singleton_inj.mp same)]
    | more before e =>
      simp [definitions, definitions_ne_nil, List.singleton_eq_append_iff] at same
  | more before d ih =>
    cases q with
    | one e => simp [definitions, definitions_ne_nil, List.append_eq_singleton_iff] at same
    | more before' e =>
      obtain ⟨first, last⟩ := List.append_inj' same rfl
      rw [ih first, DefinitionTree.definition_inj (List.singleton_inj.mp last)]

end Grammar
end ProcessCalculus
