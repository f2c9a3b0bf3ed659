import ProcessCalculus.Shrink.Undefined
import ProcessCalculus.Statement.Targets

/-!
Pruning in three separate rewritings of the whole tree, each bottom up: the calls go at every depth,
then every empty list is filled, then idle conditionals collapse. Pruning does the three at once,
and nothing that one of them changes is of use to an earlier one.
-/
namespace ProcessCalculus

mutual

/-- Rewrites every list and every statement, the inner ones first. -/
def Statement.rewrite (onBlock : Block → Block) (onStatement : Statement → Statement) :
    Statement → Statement
  | .tau => onStatement .tau
  | .act a => onStatement (.act a)
  | .invoke m f xs => onStatement (.invoke m f xs)
  | .branch c t e =>
    onStatement (.branch c (onBlock (Block.rewriteEach onBlock onStatement t))
      (onBlock (Block.rewriteEach onBlock onStatement e)))
  | .select cs => onStatement (.select (Statement.rewriteCases onBlock onStatement cs))

def Block.rewriteEach (onBlock : Block → Block) (onStatement : Statement → Statement) :
    List Statement → List Statement
  | [] => []
  | s :: rest => s.rewrite onBlock onStatement :: Block.rewriteEach onBlock onStatement rest

def Statement.rewriteCases (onBlock : Block → Block) (onStatement : Statement → Statement) :
    List (List Statement) → List (List Statement)
  | [] => []
  | b :: rest =>
    onBlock (Block.rewriteEach onBlock onStatement b) ::
      Statement.rewriteCases onBlock onStatement rest

end

def Block.rewrite (onBlock : Block → Block) (onStatement : Statement → Statement) (b : Block) :
    Block :=
  onBlock (Block.rewriteEach onBlock onStatement b)

/-- Whether a statement is anything but a call or spawn of a name outside `kept`. -/
def Statement.stays (kept : String → Bool) : Statement → Bool
  | .invoke _ f _ => kept f
  | _ => true

/-- A conditional with nothing but an inaction on both sides becomes one. -/
def Statement.collapsed : Statement → Statement
  | .branch c t e => if t = Block.idle ∧ e = Block.idle then .tau else .branch c t e
  | s => s

namespace Block

def dropCalls (kept : String → Bool) : Block → Block :=
  Block.rewrite (List.filter (Statement.stays kept)) id

def fillEmpty : Block → Block := Block.rewrite orIdle id

def collapse : Block → Block := Block.rewrite id Statement.collapsed

end Block

variable {onBlock : Block → Block} {onStatement : Statement → Statement} {kept : String → Bool}

theorem Block.rewriteEach_eq_map (b : Block) :
    Block.rewriteEach onBlock onStatement b = b.map (Statement.rewrite onBlock onStatement) := by
  induction b with
  | nil => rfl
  | cons s b ih => rw [rewriteEach, ih, List.map_cons]

theorem Statement.rewriteCases_eq_map (cs : List Block) :
    Statement.rewriteCases onBlock onStatement cs = cs.map (Block.rewrite onBlock onStatement) := by
  induction cs with
  | nil => rfl
  | cons b cs ih => rw [rewriteCases, ih, List.map_cons, Block.rewrite]

/-- The three rewritings of a single statement, which itself stays where it is. -/
def Statement.pruned (kept : String → Bool) (s : Statement) : Statement :=
  ((s.rewrite (List.filter (Statement.stays kept)) id).rewrite Block.orIdle id).rewrite id
    Statement.collapsed

theorem Statement.stays_rewrite (s : Statement) :
    (s.rewrite (List.filter (Statement.stays kept)) id).stays kept = s.stays kept := by
  cases s <;> rfl

theorem Block.map_orIdle {f : Statement → Statement} (tau : f .tau = .tau) (b : Block) :
    (Block.orIdle b).map f = Block.orIdle (b.map f) := by
  cases b with
  | nil => simp [Block.orIdle, Block.idle, tau]
  | cons s b => rfl

theorem Block.collapse_fillEmpty_dropCalls (b : Block) :
    Block.collapse (Block.fillEmpty (Block.dropCalls kept b)) =
      Block.orIdle ((b.filter (Statement.stays kept)).map (Statement.pruned kept)) := by
  have stays : (Statement.stays kept ∘ Statement.rewrite (List.filter (Statement.stays kept)) id) =
      Statement.stays kept := funext Statement.stays_rewrite
  simp only [collapse, fillEmpty, dropCalls, rewrite]
  rw [rewriteEach_eq_map, rewriteEach_eq_map, rewriteEach_eq_map, map_orIdle rfl, List.filter_map,
    stays, List.map_map, List.map_map]
  rfl

theorem Block.prune_of_members {b : Block} (members : ∀ s ∈ b, s.prune kept =
      if s.stays kept then some (s.pruned kept) else none) :
    Block.prune kept b = Block.collapse (Block.fillEmpty (Block.dropCalls kept b)) := by
  rw [collapse_fillEmpty_dropCalls, Block.prune, pruneEach_eq_filterMap]
  congr 1
  induction b with
  | nil => rfl
  | cons s b ih =>
    have first := members s List.mem_cons_self
    have rest := ih fun u member => members u (List.mem_cons_of_mem _ member)
    cases here : s.stays kept with
    | true => simp [first, here, rest]
    | false => simp [first, here, rest]

theorem Statement.prune_eq (s : Statement) :
    s.prune kept = if s.stays kept then some (s.pruned kept) else none := by
  induction s using Statement.induct with
  | tau => rfl
  | act a => rfl
  | invoke m f xs => rfl
  | branch c t e ht he =>
    have thenBlock := Block.prune_of_members ht
    have elseBlock := Block.prune_of_members he
    have both : (Statement.branch c t e).pruned kept =
        Statement.collapsed (.branch c (Block.prune kept t) (Block.prune kept e)) := by
      rw [thenBlock, elseBlock]
      rfl
    rw [both]
    exact (apply_ite some _ _ _).symm
  | select cs hcs =>
    have cases : cs.map (Block.prune kept) =
        cs.map fun b => Block.collapse (Block.fillEmpty (Block.dropCalls kept b)) :=
      List.map_congr_left fun b member => Block.prune_of_members (hcs b member)
    have each : (Statement.select cs).pruned kept =
        .select (cs.map fun b => Block.collapse (Block.fillEmpty (Block.dropCalls kept b))) := by
      simp only [pruned, rewrite, id, rewriteCases_eq_map, List.map_map, Statement.collapsed]
      rfl
    rw [prune, pruneCases_eq_map, cases, each]
    rfl

/-- Pruning at once is pruning in three rewritings. -/
theorem Block.prune_eq (b : Block) :
    Block.prune kept b = Block.collapse (Block.fillEmpty (Block.dropCalls kept b)) :=
  Block.prune_of_members fun s _ => s.prune_eq

end ProcessCalculus
