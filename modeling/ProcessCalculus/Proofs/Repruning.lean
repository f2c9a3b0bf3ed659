import Mathlib.Data.List.Basic
import ProcessCalculus.Shrink.Silence
import ProcessCalculus.Shrink.Undefined
import ProcessCalculus.Statement.Targets

/-!
What pruning leaves of a block. A relation that allows what pruning does to a statement holds
between every block and what is left of it. So the calls left are those of kept functions, in the
order of the text, and what shows by itself is left as it was. Pruning again for fewer kept
functions is pruning for those alone, and for the same ones it finds nothing more to do.
-/
namespace ProcessCalculus

variable {kept fewer : String → Bool}

theorem Block.pruneEach_cons (s : Statement) (b : Block) :
    Block.pruneEach kept (s :: b) = (s.prune kept).toList ++ Block.pruneEach kept b := by
  rw [pruneEach]
  cases s.prune kept <;> rfl

theorem Statement.prune_branch (c : Option String) (t e : Block) :
    (Statement.branch c t e).prune kept =
      if Block.prune kept t = Block.idle ∧ Block.prune kept e = Block.idle then some .tau
      else some (.branch c (Block.prune kept t) (Block.prune kept e)) := rfl

theorem Statement.prune_select (cs : List Block) :
    (Statement.select cs).prune kept = some (.select (cs.map (Block.prune kept))) := by
  rw [prune, pruneCases_eq_map]

theorem map_eq_self_iff {α : Type} {f : α → α} {l : List α} : l.map f = l ↔ ∀ a ∈ l, f a = a := by
  have same := @List.map_inj_left _ _ l f id
  rwa [List.map_id] at same

/-! Relations between blocks and what is left of them. -/

/-- The function is called or spawned by the statement, at whatever depth. -/
inductive Statement.Invokes (m : Transfer) (f : String) : Statement → Prop where
  | here (xs : List Parameter) : Invokes m f (.invoke m f xs)
  | thenBranch {s : Statement} (c : Option String) {t : Block} (e : Block) :
      s ∈ t → Invokes m f s → Invokes m f (.branch c t e)
  | elseBranch {s : Statement} (c : Option String) (t : Block) {e : Block} :
      s ∈ e → Invokes m f s → Invokes m f (.branch c t e)
  | case {s : Statement} {b : Block} {cs : List Block} :
      b ∈ cs → s ∈ b → Invokes m f s → Invokes m f (.select cs)

theorem Statement.Invokes.target {m : Transfer} {f : String} {s : Statement}
    (invokes : s.Invokes m f) : f ∈ s.targets := by
  induction invokes with
  | here xs => exact List.mem_singleton_self f
  | thenBranch c e member _ ih =>
    exact List.mem_append_left _ (Block.mem_targets.mpr ⟨_, member, ih⟩)
  | elseBranch c t member _ ih =>
    exact List.mem_append_right _ (Block.mem_targets.mpr ⟨_, member, ih⟩)
  | case inside member _ ih =>
    exact mem_caseTargets.mpr ⟨_, inside, Block.mem_targets.mpr ⟨_, member, ih⟩⟩

/-- What a relation has to allow to hold between blocks and what pruning leaves of them, where the
calls and spawns to be removed are `lost`. -/
structure PruneRelation (kept : String → Bool) (lost : Transfer → String → Prop)
    (R : Block → Block → Prop) : Prop where
  done : R [] []
  wait {b d : Block} : R b d → R b (.tau :: d)
  tau {b d : Block} : R b d → R (.tau :: b) (.tau :: d)
  act (a : Action) {b d : Block} : R b d → R (.act a :: b) (.act a :: d)
  keep (m : Transfer) {f : String} (xs : List Parameter) {b d : Block} : kept f = true →
    R b d → R (.invoke m f xs :: b) (.invoke m f xs :: d)
  lose {m : Transfer} {f : String} (xs : List Parameter) {b d : Block} : lost m f →
    R b d → R (.invoke m f xs :: b) d
  branch (c : Option String) {t t' e e' b d : Block} : R t t' → R e e' →
    R b d → R (.branch c t e :: b) (.branch c t' e' :: d)
  collapsed (c : Option String) {t e b d : Block} : R t Block.idle → R e Block.idle →
    R b d → R (.branch c t e :: b) (.tau :: d)
  select {cs : List Block} {b d : Block} : (∀ c ∈ cs, R c (Block.prune kept c)) →
    R b d → R (.select cs :: b) (.select (cs.map (Block.prune kept)) :: d)

namespace PruneRelation

variable {lost : Transfer → String → Prop} {R : Block → Block → Prop}
  (relation : PruneRelation kept lost R)
include relation

theorem of_members {b : Block} (members : ∀ s ∈ b, ∀ {c d : Block}, R c d →
    R (s :: c) ((s.prune kept).toList ++ d)) : R b (Block.prune kept b) := by
  have each : R b (Block.pruneEach kept b) := by
    induction b with
    | nil => exact relation.done
    | cons s b ih =>
      obtain ⟨first, rest⟩ := List.forall_mem_cons.mp members
      rw [Block.pruneEach_cons]
      exact first (ih rest)
  rw [Block.prune, Block.orIdle]
  split
  · next empty =>
    rw [empty] at each
    exact relation.wait each
  · exact each

theorem cons (s : Statement) (removed : ∀ m f, s.Invokes m f → kept f = true ∨ lost m f) :
    ∀ {b d : Block}, R b d → R (s :: b) ((s.prune kept).toList ++ d) := by
  induction s using Statement.induct with
  | tau =>
    intro b d rest
    exact relation.tau rest
  | act a =>
    intro b d rest
    exact relation.act a rest
  | invoke m f xs =>
    intro b d rest
    rw [Statement.prune]
    by_cases stays : kept f = true
    · rw [if_pos stays]
      exact relation.keep m xs stays rest
    · rw [if_neg stays]
      exact relation.lose xs ((removed m f (.here xs)).resolve_left stays) rest
  | branch c t e ht he =>
    intro b d rest
    have thenBody : R t (Block.prune kept t) := relation.of_members fun s member =>
      ht s member fun m f invokes => removed m f (.thenBranch c e member invokes)
    have elseBody : R e (Block.prune kept e) := relation.of_members fun s member =>
      he s member fun m f invokes => removed m f (.elseBranch c t member invokes)
    rw [Statement.prune_branch]
    split
    · next idle =>
      rw [idle.1] at thenBody
      rw [idle.2] at elseBody
      exact relation.collapsed c thenBody elseBody rest
    · exact relation.branch c thenBody elseBody rest
  | select cs hcs =>
    intro b d rest
    rw [Statement.prune_select]
    refine relation.select (fun c inside => ?_) rest
    exact relation.of_members fun s member =>
      hcs c inside s member fun m f invokes => removed m f (.case inside member invokes)

/-- Pruning a block gives a block that it is related to. -/
theorem prune {b : Block}
    (removed : ∀ s ∈ b, ∀ m f, s.Invokes m f → kept f = true ∨ lost m f) :
    R b (Block.prune kept b) :=
  relation.of_members fun s member => relation.cons s (removed s member)

omit relation in
/-- Where every call of a function that is not kept may be lost, all blocks are related to what is
left of them. -/
theorem prune_all (relation : PruneRelation kept (fun _ f => kept f = false) R) (b : Block) :
    R b (Block.prune kept b) :=
  relation.prune fun _ _ _ f _ => Bool.eq_false_or_eq_true (kept f)

end PruneRelation

/-! The calls that are left, and what shows by itself. -/

theorem Block.targets_append (b d : Block) :
    Block.targets (b ++ d) = Block.targets b ++ Block.targets d := by
  simp only [targets_eq_flatMap, List.flatMap_append]

theorem Block.targets_relation : PruneRelation kept (fun _ f => kept f = false)
    fun b d => Block.targets d = (Block.targets b).filter kept where
  done := rfl
  wait rest := rest
  tau rest := rest
  act a _ _ rest := rest
  keep m f xs _ _ stays rest := by simp [targets, Statement.targets, stays, rest]
  lose xs _ _ lost rest := by simp [targets, Statement.targets, lost, rest]
  branch c _ _ _ _ _ _ thenBody elseBody rest := by
    simp only [targets, Statement.targets, List.filter_append, thenBody, elseBody, rest]
  collapsed c _ _ _ _ thenBody elseBody rest := by
    simp only [targets, Statement.targets, List.filter_append, ← thenBody, ← elseBody, rest]
    rfl
  select {cs _ _} cases rest := by
    have bodies : (cs.map (prune kept)).flatMap targets =
        cs.flatMap fun b => (targets b).filter kept := by
      rw [List.flatMap_map]
      exact List.flatMap_congr cases
    rw [targets, targets, Statement.targets, Statement.targets, Statement.caseTargets_eq_flatMap,
      Statement.caseTargets_eq_flatMap, bodies, rest, List.filter_append, List.filter_flatMap]

theorem Block.targets_prune (b : Block) :
    Block.targets (Block.prune kept b) = (Block.targets b).filter kept :=
  targets_relation.prune_all b

theorem Block.quiet_relation : PruneRelation kept (fun _ f => kept f = false)
    fun b d => Block.quiet d = Block.quiet b where
  done := rfl
  wait rest := rest
  tau rest := rest
  act _ _ _ _ := rfl
  keep _ _ _ _ _ _ rest := rest
  lose _ _ _ _ rest := rest
  branch c _ _ _ _ _ _ thenBody elseBody rest := by
    simp only [quiet, Statement.quiet, thenBody, elseBody, rest]
  collapsed c _ _ _ _ thenBody elseBody rest := by
    simp only [quiet, Statement.quiet, ← thenBody, ← elseBody, rest]
    rfl
  select _ _ := rfl

theorem Block.quiet_prune (b : Block) : Block.quiet (Block.prune kept b) = Block.quiet b :=
  quiet_relation.prune_all b

/-! Pruning again. -/

theorem Block.prune_orIdle (b : Block) :
    Block.prune kept (Block.orIdle b) = Block.prune kept b := by
  cases b <;> rfl

theorem Block.prune_prune_of_members {b : Block}
    (members : ∀ s ∈ b, (s.prune kept).bind (Statement.prune fewer) = s.prune fewer) :
    Block.pruneEach fewer (Block.pruneEach kept b) = Block.pruneEach fewer b ∧
      Block.prune fewer (Block.prune kept b) = Block.prune fewer b := by
  have each : Block.pruneEach fewer (Block.pruneEach kept b) = Block.pruneEach fewer b := by
    simp only [pruneEach_eq_filterMap, List.filterMap_filterMap]
    exact List.filterMap_congr members
  refine ⟨each, ?_⟩
  change Block.prune fewer (Block.orIdle (Block.pruneEach kept b)) = _
  rw [prune_orIdle, Block.prune, each, Block.prune]

theorem Statement.prune_prune (narrower : ∀ f, fewer f = true → kept f = true) (s : Statement) :
    (s.prune kept).bind (Statement.prune fewer) = s.prune fewer := by
  induction s using Statement.induct with
  | tau => rfl
  | act a => rfl
  | invoke m f xs =>
    by_cases stays : fewer f = true
    · simp [prune, stays, narrower f stays]
    · by_cases before : kept f = true <;> simp [prune, stays, before]
  | branch c t e ht he =>
    have thenBlock := (Block.prune_prune_of_members ht).2
    have elseBlock := (Block.prune_prune_of_members he).2
    rw [prune_branch, prune_branch, ← thenBlock, ← elseBlock]
    split
    · next idle =>
      rw [idle.1, idle.2]
      rfl
    · rfl
  | select cs hcs =>
    rw [prune_select, prune_select, Option.bind_some, prune_select, List.map_map]
    congr 2
    exact List.map_congr_left fun b member => (Block.prune_prune_of_members (hcs b member)).2

/-- Pruning in stages is pruning once, for the functions of the last stage. -/
theorem Block.prune_prune (narrower : ∀ f, fewer f = true → kept f = true) (b : Block) :
    Block.prune fewer (Block.prune kept b) = Block.prune fewer b :=
  (prune_prune_of_members fun s _ => s.prune_prune narrower).2

/-! Nothing more to do. -/

theorem Block.prunableWithin_eq_any (b : Block) :
    Block.prunableWithin kept b = b.any (Statement.prunable kept) := by
  induction b with
  | nil => rfl
  | cons s b ih => rw [prunableWithin, ih, List.any_cons]

theorem Statement.prunableCases_eq_any (cs : List Block) :
    Statement.prunableCases kept cs = cs.any (Block.prunable kept) := by
  induction cs with
  | nil => rfl
  | cons b cs ih => rw [prunableCases, ih, List.any_cons, Block.prunable]

theorem Statement.prunable_branch (c : Option String) (t e : Block) :
    (Statement.branch c t e).prunable kept = (Block.prunable kept t || Block.prunable kept e ||
      (Block.prune kept t = Block.idle && Block.prune kept e = Block.idle)) := by
  simp only [prunable, Block.prunable, Bool.or_assoc]

theorem Block.prunable_prune_of_members {b : Block}
    (members : ∀ s ∈ b, ∀ u, s.prune kept = some u → u.prunable kept = false) :
    Block.prunable kept (Block.prune kept b) = false := by
  have within : Block.prunableWithin kept (Block.pruneEach kept b) = false := by
    rw [prunableWithin_eq_any, List.any_eq_false, pruneEach_eq_filterMap]
    intro u member
    obtain ⟨s, inside, left⟩ := List.mem_filterMap.mp member
    rw [Bool.not_eq_true]
    exact members s inside u left
  have again : Block.pruneEach kept (Block.pruneEach kept b) = Block.pruneEach kept b :=
    (prune_prune_of_members fun s _ => s.prune_prune fun _ stays => stays).1
  rw [Block.prune, orIdle]
  split
  · rfl
  · next filled => rw [prunable, within, again, Bool.or_false, List.isEmpty_eq_false_iff.mpr filled]

theorem Statement.prunable_prune {s u : Statement} (left : s.prune kept = some u) :
    u.prunable kept = false := by
  induction s using Statement.induct generalizing u with
  | tau =>
    cases left
    rfl
  | act a =>
    cases left
    rfl
  | invoke m f xs =>
    rw [prune, Option.ite_none_right_eq_some] at left
    obtain ⟨stays, same⟩ := left
    cases same
    simp [prunable, stays]
  | branch c t e ht he =>
    -- a conditional that is left did not collapse, and its pruned branches do not change again
    have thenBlock := Block.prunable_prune_of_members fun s member u => ht s member
    have elseBlock := Block.prunable_prune_of_members fun s member u => he s member
    have same (b : Block) : Block.prune kept (Block.prune kept b) = Block.prune kept b :=
      Block.prune_prune (fun _ stays => stays) b
    rw [prune_branch] at left
    split at left
    · cases left
      rfl
    · next busy =>
      cases left
      rw [prunable_branch, thenBlock, elseBlock, same, same]
      simpa using busy
  | select cs hcs =>
    rw [prune_select] at left
    cases left
    rw [prunable, prunableCases_eq_any, List.any_eq_false]
    intro b member
    obtain ⟨d, inside, rfl⟩ := List.mem_map.mp member
    rw [Bool.not_eq_true]
    exact Block.prunable_prune_of_members fun s member u => hcs d inside s member

/-- After pruning there is nothing to prune. -/
theorem Block.prunable_prune (b : Block) : Block.prunable kept (Block.prune kept b) = false :=
  prunable_prune_of_members fun _ _ _ left => Statement.prunable_prune left

end ProcessCalculus
