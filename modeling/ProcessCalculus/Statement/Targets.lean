import ProcessCalculus.Statement.Basic

/-!
The functions that statements call or spawn, at every depth and in the order of the text.
-/
namespace ProcessCalculus

mutual

def Statement.targets : Statement → List String
  | .tau => []
  | .act _ => []
  | .invoke _ callee _ => [callee]
  | .branch _ thenBody elseBody => Block.targets thenBody ++ Block.targets elseBody
  | .select cases => Statement.caseTargets cases

def Block.targets : List Statement → List String
  | [] => []
  | s :: rest => s.targets ++ Block.targets rest

def Statement.caseTargets : List (List Statement) → List String
  | [] => []
  | body :: rest => Block.targets body ++ Statement.caseTargets rest

end

theorem Block.targets_eq_flatMap (b : Block) : Block.targets b = b.flatMap Statement.targets := by
  induction b with
  | nil => rfl
  | cons s b ih => simp [Block.targets, ih]

theorem Statement.caseTargets_eq_flatMap (cs : List Block) :
    Statement.caseTargets cs = cs.flatMap Block.targets := by
  induction cs with
  | nil => rfl
  | cons b cs ih => simp [Statement.caseTargets, ih]

theorem Block.mem_targets {b : Block} {f : String} :
    f ∈ Block.targets b ↔ ∃ s ∈ b, f ∈ s.targets := by
  rw [targets_eq_flatMap, List.mem_flatMap]

theorem Statement.mem_caseTargets {cs : List Block} {f : String} :
    f ∈ Statement.caseTargets cs ↔ ∃ b ∈ cs, f ∈ Block.targets b := by
  rw [caseTargets_eq_flatMap, List.mem_flatMap]

end ProcessCalculus
