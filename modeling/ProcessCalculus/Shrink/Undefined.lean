import ProcessCalculus.Program

/-!
Removal of calls and spawns of functions that are not defined, at every depth. A body, branch or
case left without statements becomes an inaction, and a conditional with nothing but an inaction on
both sides becomes one.
-/
namespace ProcessCalculus

namespace Block

/-- A block of nothing but one inaction. -/
def idle : Block := [.tau]

/-- The block itself, or an inaction in place of an empty one. -/
def orIdle (b : Block) : Block := if b = [] then idle else b

end Block

mutual

/-- A statement without undefined calls, none where it is such a call itself. -/
def Statement.prune (defined : String → Bool) : Statement → Option Statement
  | .tau => some .tau
  | .act action => some (.act action)
  | .invoke mode callee arguments =>
    if defined callee then some (.invoke mode callee arguments) else none
  | .branch loop thenBody elseBody =>
    let thenBody := Block.orIdle (Block.pruneEach defined thenBody)
    let elseBody := Block.orIdle (Block.pruneEach defined elseBody)
    if thenBody = Block.idle ∧ elseBody = Block.idle then some .tau
    else some (.branch loop thenBody elseBody)
  | .select cases => some (.select (Statement.pruneCases defined cases))

/-- The statements that are left of a block. -/
def Block.pruneEach (defined : String → Bool) : List Statement → List Statement
  | [] => []
  | s :: rest =>
    match s.prune defined with
    | some kept => kept :: Block.pruneEach defined rest
    | none => Block.pruneEach defined rest

def Statement.pruneCases (defined : String → Bool) : List (List Statement) → List (List Statement)
  | [] => []
  | body :: rest => Block.orIdle (Block.pruneEach defined body) :: Statement.pruneCases defined rest

end

/-- A block without undefined calls, and never empty. -/
def Block.prune (defined : String → Bool) (b : Block) : Block :=
  Block.orIdle (Block.pruneEach defined b)

mutual

/-- Whether pruning a statement finds something to remove or to replace. -/
def Statement.prunable (defined : String → Bool) : Statement → Bool
  | .tau => false
  | .act _ => false
  | .invoke _ callee _ => !defined callee
  | .branch _ thenBody elseBody =>
    (Block.pruneEach defined thenBody).isEmpty || Block.prunableWithin defined thenBody ||
    (Block.pruneEach defined elseBody).isEmpty || Block.prunableWithin defined elseBody ||
    (Block.prune defined thenBody = Block.idle && Block.prune defined elseBody = Block.idle)
  | .select cases => Statement.prunableCases defined cases

/-- Whether pruning finds something in a statement of a block. -/
def Block.prunableWithin (defined : String → Bool) : List Statement → Bool
  | [] => false
  | s :: rest => s.prunable defined || Block.prunableWithin defined rest

def Statement.prunableCases (defined : String → Bool) : List (List Statement) → Bool
  | [] => false
  | body :: rest =>
    (Block.pruneEach defined body).isEmpty || Block.prunableWithin defined body ||
      Statement.prunableCases defined rest

end

/-- Whether pruning a block finds something to remove or to replace. -/
def Block.prunable (defined : String → Bool) (b : Block) : Bool :=
  (Block.pruneEach defined b).isEmpty || Block.prunableWithin defined b

namespace Program

/-- Removes every call and spawn of a function that the program does not define. -/
def dropUndefined (p : Program) : Program :=
  ⟨p.functions.map fun f => f.withBody (Block.prune p.contains f.body)⟩

/-- Whether removing undefined calls finds something to remove or to replace. -/
def hasUndefined (p : Program) : Bool :=
  p.functions.any fun f => Block.prunable p.contains f.body

@[simp] theorem names_dropUndefined (p : Program) : p.dropUndefined.names = p.names := by
  simp [dropUndefined, names, Function.comp_def]

end Program

theorem Block.pruneEach_eq_filterMap (defined : String → Bool) (b : Block) :
    Block.pruneEach defined b = b.filterMap (Statement.prune defined) := by
  induction b with
  | nil => rfl
  | cons s b ih =>
    rw [Block.pruneEach, List.filterMap_cons, ih]
    cases s.prune defined <;> rfl

theorem Statement.pruneCases_eq_map (defined : String → Bool) (cs : List Block) :
    Statement.pruneCases defined cs = cs.map (Block.prune defined) := by
  induction cs with
  | nil => rfl
  | cons b cs ih => simp [Statement.pruneCases, Block.prune, ih]

theorem Block.prune_ne_nil (defined : String → Bool) (b : Block) :
    Block.prune defined b ≠ [] := by
  unfold Block.prune Block.orIdle Block.idle
  split <;> simp_all

end ProcessCalculus
