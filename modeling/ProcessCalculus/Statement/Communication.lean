import ProcessCalculus.Statement.Basic

/-!
Communication of statements: whether appending a statement makes a body visible to an observer.
A call or spawn counts where it passes arguments, since the callee then shares them.
-/
namespace ProcessCalculus

mutual

def Statement.communicates : Statement → Bool
  | .tau => false
  | .act _ => true
  | .invoke _ _ arguments => !arguments.isEmpty
  | .branch _ thenBody elseBody => Block.communicates thenBody || Block.communicates elseBody
  | .select _ => true

/-- Whether some statement of the block communicates. -/
def Block.communicates : List Statement → Bool
  | [] => false
  | s :: rest => s.communicates || Block.communicates rest

end

namespace Block

theorem communicates_eq_any (b : Block) : Block.communicates b = b.any Statement.communicates := by
  induction b with
  | nil => rfl
  | cons s b ih => simp [Block.communicates, ih]

@[simp] theorem communicates_append (b c : Block) :
    Block.communicates (b ++ c) = (Block.communicates b || Block.communicates c) := by
  simp [communicates_eq_any]

@[simp] theorem communicates_singleton (s : Statement) :
    Block.communicates [s] = s.communicates := by
  simp [communicates_eq_any]

end Block
end ProcessCalculus
