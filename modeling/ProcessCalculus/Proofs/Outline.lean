import Mathlib.Data.List.Forall2
import ProcessCalculus.Proofs.Adjacency
import ProcessCalculus.Proofs.Repruning

/-!
What an analysis cannot tell apart. Removing undefined calls leaves the call graph as it is, down to
the order in which places and calls were found, and the same functions silent; in each body the
statements that count stand in the same order, although whole conditionals around them are gone.
-/
namespace ProcessCalculus

/-- Whether a statement is anything but an inaction, a conditional or an undefined call. -/
def Statement.counts (defined : String → Bool) : Statement → Bool
  | .tau => false
  | .act _ => true
  | .invoke _ f _ => defined f
  | .branch _ _ _ => false
  | .select _ => true

/-- A choice with as many cases, but nothing in them; any other statement as it is. -/
def Statement.hollow : Statement → Statement
  | .select cs => .select (cs.map fun _ => [])
  | s => s

/-- The statements that count, at every depth and in the order of the text. -/
def Block.outline (defined : String → Bool) (b : Block) : List Statement :=
  ((Block.parts b).filter (Statement.counts defined)).map Statement.hollow

variable {defined : String → Bool}

namespace Block

/-! The outline of a block by its first statement. -/

theorem outline_tau (b : Block) : outline defined (.tau :: b) = outline defined b := rfl

theorem outline_act (a : Action) (b : Block) :
    outline defined (.act a :: b) = .act a :: outline defined b := rfl

theorem outline_invoke (m : Transfer) (f : String) (xs : List Parameter) (b : Block) :
    outline defined (.invoke m f xs :: b) =
      if defined f then .invoke m f xs :: outline defined b else outline defined b := by
  simp only [outline, parts, Statement.parts, List.singleton_append, List.filter_cons,
    Statement.counts]
  exact apply_ite (List.map Statement.hollow) _ _ _

theorem outline_branch (c : Option String) (t e b : Block) :
    outline defined (.branch c t e :: b) =
      outline defined t ++ (outline defined e ++ outline defined b) := by
  simp only [outline, parts, Statement.parts, List.cons_append, List.filter_cons,
    Statement.counts, Bool.false_eq_true, ↓reduceIte, List.filter_append, List.map_append,
    List.append_assoc]

theorem outline_select (cs : List Block) (b : Block) :
    outline defined (.select cs :: b) =
      .select (cs.map fun _ => []) :: (cs.flatMap (outline defined) ++ outline defined b) := by
  have cases : ((cs.flatMap parts).filter (Statement.counts defined)).map Statement.hollow =
      cs.flatMap (outline defined) := by
    rw [List.filter_flatMap, List.map_flatMap]
    rfl
  simp only [outline, parts, Statement.parts, Statement.caseParts_eq_flatMap, List.cons_append,
    List.filter_cons, Statement.counts, ↓reduceIte, List.filter_append, List.map_append,
    List.map_cons, Statement.hollow, cases]

/-- Pruning does to a block nothing that its outline shows. -/
theorem outline_relation : PruneRelation defined (fun _ f => defined f = false)
    fun b d => outline defined d = outline defined b where
  done := rfl
  wait rest := rest
  tau rest := rest
  act a _ _ rest := by rw [outline_act, outline_act, rest]
  keep m f xs _ _ _ rest := by rw [outline_invoke, outline_invoke, rest]
  lose xs _ _ lost rest := by rw [outline_invoke, if_neg (by simp [lost]), rest]
  branch c _ _ _ _ _ _ thenBody elseBody rest := by
    rw [outline_branch, outline_branch, thenBody, elseBody, rest]
  collapsed c _ _ _ _ thenBody elseBody rest := by
    rw [outline_branch, ← thenBody, ← elseBody, outline_tau, rest]
    rfl
  select {cs _ _} cases rest := by
    have bodies : (cs.map (prune defined)).flatMap (outline defined) =
        cs.flatMap (outline defined) := by
      rw [List.flatMap_map]
      exact List.flatMap_congr cases
    rw [outline_select, outline_select, bodies, List.map_map, rest]
    rfl

theorem outline_prune (b : Block) : outline defined (prune defined b) = outline defined b :=
  outline_relation.prune_all b

end Block

namespace Program

variable (p : Program)

/-! The call graph. -/

theorem size_dropUndefined : p.dropUndefined.size = p.size := by
  simp [dropUndefined, size]

theorem position?_dropUndefined : p.dropUndefined.position? = p.position? := by
  funext name
  rw [position?, dropUndefined, List.findIdx?_map]
  rfl

theorem contains_eq_isSome (name : String) : p.contains name = (p.position? name).isSome := by
  rw [position?, List.findIdx?_isSome, contains]

theorem callees_dropUndefined : p.dropUndefined.callees = p.callees := by
  funext place
  rw [callees, callees, position?_dropUndefined, dropUndefined, List.getElem?_map]
  cases p.functions[place]? with
  | none => rfl
  | some f =>
    -- an undefined target has no place, so it makes no difference whether it is named
    change (Block.targets (Block.prune p.contains f.body)).filterMap p.position? = _
    rw [Block.targets_prune, List.filterMap_filter]
    apply List.filterMap_congr
    intro name _
    rw [contains_eq_isSome]
    cases p.position? name <;> rfl

theorem callGraph_dropUndefined : p.dropUndefined.callGraph = p.callGraph := by
  rw [callGraph, callees_dropUndefined, size_dropUndefined, callGraph]

/-! The silent functions. -/

theorem zipIdx_dropUndefined : p.dropUndefined.functions.zipIdx = p.functions.zipIdx.map fun x =>
    (x.1.withBody (Block.prune p.contains x.1.body), x.2) := by
  rw [dropUndefined, List.zipIdx_map]
  rfl

theorem quietPlaces_dropUndefined : p.dropUndefined.quietPlaces = p.quietPlaces := by
  rw [quietPlaces, zipIdx_dropUndefined, size_dropUndefined, List.foldl_map]
  simp only [Function.withBody, Block.quiet_prune]
  rfl

theorem silentPlaces_dropUndefined : p.dropUndefined.silentPlaces = p.silentPlaces := by
  rw [silentPlaces, callGraph_dropUndefined, quietPlaces_dropUndefined, silentPlaces]

/-- The same places are found silent, so a policy is asked about the same functions in the same
order, each with its pruned body. -/
theorem silentFunctions_dropUndefined : p.dropUndefined.silentFunctions =
    p.silentFunctions.map fun x => (x.1.withBody (Block.prune p.contains x.1.body), x.2) := by
  simp only [silentFunctions, zipIdx_dropUndefined, silentPlaces_dropUndefined, List.filter_map]
  rfl

/-- Removing undefined calls changes neither the call graph nor which functions are offered as
silent. Every function stays where it was declared, with its name, its parameters and the bodies set
aside; the statements of its body that count are the same in the same order, and each choice among
them has as many cases as before. -/
theorem dropUndefined_invisible :
    p.dropUndefined.callGraph = p.callGraph ∧
    p.dropUndefined.silentFunctions =
      p.silentFunctions.map (fun x => (x.1.withBody (Block.prune p.contains x.1.body), x.2)) ∧
    List.Forall₂ (fun f g => g.name = f.name ∧ g.parameters = f.parameters ∧ g.saved = f.saved ∧
        Block.outline p.contains g.body = Block.outline p.contains f.body)
      p.functions p.dropUndefined.functions := by
  refine ⟨p.callGraph_dropUndefined, p.silentFunctions_dropUndefined, ?_⟩
  rw [dropUndefined, List.forall₂_map_right_iff, List.forall₂_same]
  exact fun f _ => ⟨rfl, rfl, rfl, Block.outline_prune f.body⟩

end Program
end ProcessCalculus
