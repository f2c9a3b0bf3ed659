import ProcessCalculus.Proofs.History
import ProcessCalculus.Proofs.Passes

/-!
What removing undefined calls leaves is tidy: no list of statements is empty, at whatever depth,
none calls or spawns an undefined function, and none has a conditional that is idle on both sides.
Dropping calls, filling the lists that this empties and collapsing the conditionals that this leaves
idle never make up for each other, so a program stays the same exactly if it was tidy before.
-/
namespace ProcessCalculus

/-- The lists of statements in a block: the block itself, and the branches and cases in it at
whatever depth. -/
inductive Block.Part : Block → Block → Prop where
  | whole (b : Block) : Part b b
  | thenBranch {b t e d : Block} {c : Option String} : .branch c t e ∈ b → Part t d → Part b d
  | elseBranch {b t e d : Block} {c : Option String} : .branch c t e ∈ b → Part e d → Part b d
  | case {b d : Block} {body : Block} {cs : List Block} :
      .select cs ∈ b → body ∈ cs → Part body d → Part b d

/-- What is required of one list, apart from the lists in it. -/
structure Block.Trim (defined : String → Prop) (b : Block) : Prop where
  filled : b ≠ []
  calls : ∀ m f xs, .invoke m f xs ∈ b → defined f
  conditionals : ∀ c t e, .branch c t e ∈ b → ¬ (t = Block.idle ∧ e = Block.idle)

def Block.Tidy (defined : String → Prop) (b : Block) : Prop :=
  ∀ d, Block.Part b d → Block.Trim defined d

def Program.Tidy (p : Program) : Prop := ∀ f ∈ p.functions, Block.Tidy (· ∈ p.names) f.body

/-- What tidiness of a block requires of one of its statements. -/
def Statement.Tidy (defined : String → Prop) : Statement → Prop
  | .tau => True
  | .act _ => True
  | .invoke _ f _ => defined f
  | .branch _ t e =>
    Block.Tidy defined t ∧ Block.Tidy defined e ∧ ¬ (t = Block.idle ∧ e = Block.idle)
  | .select cs => ∀ b ∈ cs, Block.Tidy defined b

variable {kept : String → Bool} {defined : String → Prop} {b : Block}

/-- The lists in a block are those of its statements, and the block itself. -/
theorem Block.tidy_iff : Block.Tidy defined b ↔ b ≠ [] ∧ ∀ s ∈ b, s.Tidy defined := by
  constructor
  · intro tidy
    obtain ⟨filled, calls, conditionals⟩ := tidy b (.whole b)
    refine ⟨filled, fun s member => ?_⟩
    cases s with
    | tau => trivial
    | act a => trivial
    | invoke m f xs => exact calls m f xs member
    | branch c t e =>
      exact ⟨fun d part => tidy d (.thenBranch member part),
        fun d part => tidy d (.elseBranch member part), conditionals c t e member⟩
    | select cs => exact fun body inside d part => tidy d (.case member inside part)
  · rintro ⟨filled, statements⟩ d part
    cases part with
    | whole =>
      exact ⟨filled, fun m f xs member => statements _ member,
        fun c t e member => (statements _ member).2.2⟩
    | thenBranch member part => exact (statements _ member).1 d part
    | elseBranch member part => exact (statements _ member).2.1 d part
    | case member inside part => exact statements _ member _ inside d part

/-! What pruning does not change. -/

/-- Nothing can be dropped and made up for: what fills an emptied list is never dropped itself. -/
theorem Block.prune_eq_self_iff_members :
    Block.prune kept b = b ↔ b ≠ [] ∧ ∀ s ∈ b, s.prune kept = some s := by
  have members : Block.pruneEach kept b = b ↔ ∀ s ∈ b, s.prune kept = some s := by
    have all := @List.filterMap_eq_map_iff_forall_eq_some _ _ (Statement.prune kept) id b
    rwa [← pruneEach_eq_filterMap, List.map_id] at all
  rw [← members]
  constructor
  · intro same
    have filled : b ≠ [] := same ▸ Block.prune_ne_nil kept b
    refine ⟨filled, ?_⟩
    rw [prune, orIdle] at same
    split at same
    · next emptied =>
      rw [← same] at emptied
      contradiction
    · exact same
  · rintro ⟨filled, same⟩
    rw [prune, same, orIdle, if_neg filled]

theorem Block.prunable_eq_false_iff_members :
    Block.prunable kept b = false ↔
      Block.pruneEach kept b ≠ [] ∧ ∀ s ∈ b, s.prunable kept = false := by
  rw [prunable, Bool.or_eq_false_iff, prunableWithin_eq_any, List.any_eq_false]
  simp only [Bool.not_eq_true, List.isEmpty_eq_false_iff]

theorem Block.prune_eq_self_of_members
    (members : ∀ s ∈ b, s.prune kept = some s ↔ s.prunable kept = false) :
    Block.prune kept b = b ↔ Block.prunable kept b = false := by
  rw [prune_eq_self_iff_members, prunable_eq_false_iff_members]
  have same : (∀ s ∈ b, s.prune kept = some s) ↔ ∀ s ∈ b, s.prunable kept = false :=
    forall₂_congr members
  rw [same]
  refine and_congr_left fun unprunable => not_congr ?_
  -- every statement stays, so the list is emptied only where it was empty
  have stays : Block.pruneEach kept b = b := by
    rw [pruneEach_eq_filterMap]
    exact (List.filterMap_congr (same.mpr unprunable)).trans List.filterMap_some
  rw [stays]

theorem Statement.prune_eq_self_iff (s : Statement) :
    s.prune kept = some s ↔ s.prunable kept = false := by
  induction s using Statement.induct with
  | tau => simp [prune, prunable]
  | act a => simp [prune, prunable]
  | invoke m f xs => simp [prune, prunable]
  | branch c t e ht he =>
    have thenBlock := Block.prune_eq_self_of_members ht
    have elseBlock := Block.prune_eq_self_of_members he
    rw [prunable_branch, prune_branch, Bool.or_eq_false_iff, Bool.or_eq_false_iff, ← thenBlock,
      ← elseBlock]
    split
    · next idle => simp [idle]
    · next busy =>
      have third : (decide (Block.prune kept t = Block.idle) &&
          decide (Block.prune kept e = Block.idle)) = false := by simpa using busy
      simp [third]
  | select cs hcs =>
    rw [prune_select, prunable, prunableCases_eq_any, List.any_eq_false, Option.some.injEq,
      Statement.select.injEq, map_eq_self_iff]
    refine forall₂_congr fun b member => ?_
    rw [Block.prune_eq_self_of_members (hcs b member), Bool.not_eq_true]

/-- Pruning changes exactly the blocks in which it finds something to remove or to replace. -/
theorem Block.prune_eq_self_iff (b : Block) :
    Block.prune kept b = b ↔ Block.prunable kept b = false :=
  prune_eq_self_of_members fun s _ => s.prune_eq_self_iff

theorem Block.prunable_eq_false_of_members
    (members : ∀ s ∈ b, s.prunable kept = false ↔ s.Tidy defined) :
    Block.prunable kept b = false ↔ Block.Tidy defined b := by
  rw [← prune_eq_self_iff, prune_eq_self_iff_members, tidy_iff]
  refine and_congr_right fun _ => forall₂_congr fun s member => ?_
  rw [Statement.prune_eq_self_iff, members s member]

theorem Statement.prunable_eq_false_iff (same : ∀ f, kept f = true ↔ defined f) (s : Statement) :
    s.prunable kept = false ↔ s.Tidy defined := by
  induction s using Statement.induct with
  | tau => simp [prunable, Tidy]
  | act a => simp [prunable, Tidy]
  | invoke m f xs => simp [prunable, Tidy, same]
  | branch c t e ht he =>
    have thenBlock := Block.prunable_eq_false_of_members ht
    have elseBlock := Block.prunable_eq_false_of_members he
    rw [prunable_branch, Bool.or_eq_false_iff, Bool.or_eq_false_iff, Tidy, ← and_assoc,
      ← thenBlock, ← elseBlock]
    refine and_congr_right fun unchanged => ?_
    rw [(Block.prune_eq_self_iff t).mpr unchanged.1, (Block.prune_eq_self_iff e).mpr unchanged.2]
    simp
  | select cs hcs =>
    rw [prunable, prunableCases_eq_any, List.any_eq_false, Tidy]
    refine forall₂_congr fun b member => ?_
    rw [Bool.not_eq_true]
    exact Block.prunable_eq_false_of_members (hcs b member)

/-- Pruning finds nothing exactly in tidy blocks. -/
theorem Block.prunable_eq_false_iff (same : ∀ f, kept f = true ↔ defined f) (b : Block) :
    Block.prunable kept b = false ↔ Block.Tidy defined b :=
  prunable_eq_false_of_members fun s _ => s.prunable_eq_false_iff same

namespace Program

variable {p : Program}

theorem hasUndefined_eq_false_iff (p : Program) : p.hasUndefined = false ↔ p.Tidy := by
  rw [hasUndefined, List.any_eq_false]
  refine forall₂_congr fun f _ => ?_
  rw [Bool.not_eq_true]
  exact Block.prunable_eq_false_iff p.contains_iff f.body

/-- Where the flags of the functions tell about their bodies, the program stays the same exactly if
nothing was found to remove or to replace. -/
theorem dropUndefined_eq_self_iff
    (flags : ∀ f ∈ p.functions, f.communicates = Block.communicates f.body) :
    p.dropUndefined = p ↔ p.hasUndefined = false := by
  have functions : p.dropUndefined = p ↔
      ∀ f ∈ p.functions, f.withBody (Block.prune p.contains f.body) = f := by
    rw [← map_eq_self_iff, dropUndefined]
    exact ⟨congrArg Program.functions, congrArg Program.mk⟩
  rw [functions, hasUndefined, List.any_eq_false]
  refine forall₂_congr fun f member => ?_
  rw [Bool.not_eq_true, ← Block.prune_eq_self_iff]
  constructor
  · exact congrArg Function.body
  · intro body
    rw [body, Function.withBody, ← flags f member]

/-- Removing undefined calls makes a program tidy in one go, and reports a change exactly where it
makes one, which is where the program was not tidy. -/
theorem dropUndefined_tidies {log : List String} (history : History log p) :
    p.dropUndefined.Tidy ∧
    (p.hasUndefined = true ↔ p.dropUndefined ≠ p) ∧
    (p.hasUndefined = true ↔ ¬ p.Tidy) ∧
    p.dropUndefined.hasUndefined = false ∧ p.dropUndefined.dropUndefined = p.dropUndefined := by
  have again := hasUndefined_dropUndefined p
  have changes := dropUndefined_eq_self_iff fun f member => (history.orderly.functions f member).flag
  refine ⟨(hasUndefined_eq_false_iff _).mp again, ?_, ?_, again, dropUndefined_dropUndefined p⟩
  · rw [Ne, changes, Bool.not_eq_false]
  · rw [← hasUndefined_eq_false_iff, Bool.not_eq_false]

/-- Once its undefined call is dropped and refilled, the conditional is idle, and so is the branch
that it fills. -/
def jetty : Program :=
  empty.add (.ofBody "jetty" []
    [.branch (some "more") [.invoke .call "gone" []] [.branch none [] [.tau]],
      .select [[.invoke .spawn "jetty" []], []]])

theorem history_jetty : History ["jetty"] jetty := History.add (.ofBody "jetty" [] _) .empty

theorem dropUndefined_tidies_jetty : History ["jetty"] jetty ∧
    jetty.dropUndefined.Tidy ∧
    (jetty.hasUndefined = true ↔ jetty.dropUndefined ≠ jetty) ∧
    (jetty.hasUndefined = true ↔ ¬ jetty.Tidy) ∧
    jetty.dropUndefined.hasUndefined = false ∧
    jetty.dropUndefined.dropUndefined = jetty.dropUndefined :=
  ⟨history_jetty, dropUndefined_tidies history_jetty⟩

example : jetty.dropUndefined =
    ⟨[.ofBody "jetty" [] [.tau, .select [[.invoke .spawn "jetty" []], [.tau]]]]⟩ := by decide

end Program
end ProcessCalculus
