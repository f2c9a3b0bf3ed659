import ProcessCalculus.Proofs.History
import ProcessCalculus.Proofs.Observable

/-!
The surface of a body: what stands at its top or in branches of conditionals, but not in the cases
of a choice. Whether a body communicates, as is noted while it is written, and whether it is quiet,
as is asked before silent functions go, are both read off the surface one statement at a time. The
two readings part only at calls and spawns that pass arguments.
-/
namespace ProcessCalculus

mutual

/-- The statements that a statement puts on the surface, in the order of the text: a conditional
those of its branches, any other statement itself. -/
def Statement.surface : Statement → List Statement
  | .tau => [.tau]
  | .act a => [.act a]
  | .invoke m f xs => [.invoke m f xs]
  | .branch _ t e => Block.surface t ++ Block.surface e
  | .select cs => [.select cs]

def Block.surface : List Statement → List Statement
  | [] => []
  | s :: rest => s.surface ++ Block.surface rest

end

theorem Block.surface_eq_flatMap (b : Block) :
    Block.surface b = b.flatMap Statement.surface := by
  induction b with
  | nil => rfl
  | cons s b ih => rw [surface, ih, List.flatMap_cons]

theorem Block.mem_surface {b : Block} {u : Statement} :
    u ∈ Block.surface b ↔ ∃ s ∈ b, u ∈ s.surface := by
  rw [surface_eq_flatMap, List.mem_flatMap]

theorem Statement.plain_of_mem_surface {s u : Statement} (member : u ∈ s.surface)
    (c : Option String) (t e : Block) : u ≠ .branch c t e := by
  induction s using Statement.induct with
  | tau | act _ | invoke _ _ _ | select _ _ =>
    rw [List.mem_singleton.mp member]
    exact nofun
  | branch _ _ _ ht he =>
    rcases List.mem_append.mp member with member | member
    · obtain ⟨s, inside, member⟩ := Block.mem_surface.mp member
      exact ht s inside member
    · obtain ⟨s, inside, member⟩ := Block.mem_surface.mp member
      exact he s inside member

/-! A property that looks through conditionals is found on the surface. -/

section Through

variable {Q : Statement → Prop}

theorem Block.exists_surface_of_members {b : Block}
    (members : ∀ s ∈ b, (∃ u ∈ s.surface, Q u) ↔ Q s) :
    (∃ u ∈ Block.surface b, Q u) ↔ ∃ s ∈ b, Q s := by
  constructor
  · rintro ⟨u, member, holds⟩
    obtain ⟨s, inside, member⟩ := mem_surface.mp member
    exact ⟨s, inside, (members s inside).mp ⟨u, member, holds⟩⟩
  · rintro ⟨s, inside, holds⟩
    obtain ⟨u, member, holds⟩ := (members s inside).mpr holds
    exact ⟨u, mem_surface.mpr ⟨s, inside, member⟩, holds⟩

variable (through : ∀ c t e, Q (.branch c t e) ↔ (∃ s ∈ t, Q s) ∨ ∃ s ∈ e, Q s)
include through

theorem Statement.exists_surface_iff (s : Statement) : (∃ u ∈ s.surface, Q u) ↔ Q s := by
  induction s using Statement.induct with
  | tau | act _ | invoke _ _ _ | select _ _ =>
    simp only [surface, List.mem_singleton, exists_eq_left]
  | branch c t e ht he =>
    rw [surface, through, ← Block.exists_surface_of_members ht,
      ← Block.exists_surface_of_members he]
    simp only [List.mem_append, or_and_right, exists_or]

theorem Block.exists_surface_iff (b : Block) :
    (∃ u ∈ Block.surface b, Q u) ↔ ∃ s ∈ b, Q s :=
  exists_surface_of_members fun s _ => s.exists_surface_iff through

end Through

/-! Both readings look through conditionals, so both are read off the surface. -/

theorem Block.communicates_iff_exists (b : Block) :
    Block.communicates b = true ↔ ∃ s ∈ b, s.communicates = true := by
  rw [communicates_eq_any, List.any_eq_true]

theorem Block.quiet_eq_false_iff_exists (b : Block) :
    Block.quiet b = false ↔ ∃ s ∈ b, s.quiet = false := by
  simp only [quiet_eq_all, List.all_eq_false, Bool.not_eq_true]

theorem Block.communicates_iff_surface (b : Block) :
    Block.communicates b = true ↔ ∃ s ∈ Block.surface b, s.communicates = true := by
  rw [communicates_iff_exists, exists_surface_iff]
  intro c t e
  rw [Statement.communicates, Bool.or_eq_true, communicates_iff_exists, communicates_iff_exists]

theorem Block.quiet_eq_false_iff_surface (b : Block) :
    Block.quiet b = false ↔ ∃ s ∈ Block.surface b, s.quiet = false := by
  rw [quiet_eq_false_iff_exists, exists_surface_iff]
  intro c t e
  rw [Statement.quiet, Bool.and_eq_false_iff, quiet_eq_false_iff_exists, quiet_eq_false_iff_exists]

/-! What the readings say of a statement that is no conditional. -/

section Plain

variable {s : Statement} (plain : ∀ c t e, s ≠ .branch c t e)
include plain

theorem Statement.quiet_eq_false_iff :
    s.quiet = false ↔ (∃ a, s = .act a) ∨ ∃ cs, s = .select cs := by
  cases s with
  | branch c t e => exact absurd rfl (plain c t e)
  | tau | act _ | invoke _ _ _ | select _ => simp [quiet]

/-- The readings tell apart a call or spawn with arguments and nothing else. -/
theorem Statement.communicates_iff :
    s.communicates = true ↔ s.quiet = false ∨ ∃ m f xs, s = .invoke m f xs ∧ xs ≠ [] := by
  cases s with
  | branch c t e => exact absurd rfl (plain c t e)
  | tau | act _ | invoke _ _ _ | select _ => simp [communicates, quiet]

end Plain

namespace Block

variable {b : Block}

theorem plain_of_mem_surface {u : Statement} (member : u ∈ Block.surface b)
    (c : Option String) (t e : Block) : u ≠ .branch c t e := by
  obtain ⟨s, -, member⟩ := mem_surface.mp member
  exact Statement.plain_of_mem_surface member c t e

/-- A body is quiet unless an action or a choice stands on its surface. -/
theorem quiet_eq_false_iff_shown (b : Block) : Block.quiet b = false ↔
    ∃ s ∈ Block.surface b, (∃ a, s = .act a) ∨ ∃ cs, s = .select cs := by
  rw [quiet_eq_false_iff_surface]
  exact exists_congr fun s => and_congr_right fun member =>
    Statement.quiet_eq_false_iff (plain_of_mem_surface member)

/-- A body communicates where it is not quiet or passes arguments on its surface. -/
theorem communicates_iff_passed (b : Block) : Block.communicates b = true ↔
    Block.quiet b = false ∨ ∃ m f xs, .invoke m f xs ∈ Block.surface b ∧ xs ≠ [] := by
  rw [communicates_iff_surface, quiet_eq_false_iff_surface]
  -- no conditional stands on a surface, so what is known of plain statements settles both ways
  constructor
  · rintro ⟨s, member, communicates⟩
    have plain := plain_of_mem_surface member
    rcases (Statement.communicates_iff plain).mp communicates with
      shown | ⟨m, f, xs, rfl, passed⟩
    · exact .inl ⟨s, member, shown⟩
    · exact .inr ⟨m, f, xs, member, passed⟩
  · rintro (⟨s, member, shown⟩ | ⟨m, f, xs, member, passed⟩)
    · have plain := plain_of_mem_surface member
      exact ⟨s, member, (Statement.communicates_iff plain).mpr (.inl shown)⟩
    · have plain := plain_of_mem_surface member
      exact ⟨_, member, (Statement.communicates_iff plain).mpr (.inr ⟨m, f, xs, rfl, passed⟩)⟩

theorem quiet_of_not_communicates (unflagged : Block.communicates b = false) :
    Block.quiet b = true := by
  by_contra shown
  have communicates : Block.communicates b = true :=
    b.communicates_iff_passed.mpr (.inl (Bool.eq_false_iff.mpr shown))
  exact Bool.noConfusion (unflagged.symm.trans communicates)

theorem communicates_eq_not_quiet
    (bare : ∀ m f xs, .invoke m f xs ∈ Block.surface b → xs = []) :
    Block.communicates b = !Block.quiet b := by
  rw [Bool.eq_iff_iff, Bool.not_eq_true', communicates_iff_passed]
  refine or_iff_left ?_
  rintro ⟨m, f, xs, member, passed⟩
  exact passed (bare m f xs member)

/-- A body is quiet unless an action or a choice stands on its surface, and communicates where it
is not quiet or a call or spawn on its surface passes arguments. So a body that does not communicate
is quiet, and where no call or spawn on the surface passes arguments either reading is the
negation of the other. -/
theorem communicates_exact (b : Block) :
    (Block.quiet b = false ↔
      ∃ s ∈ Block.surface b, (∃ a, s = .act a) ∨ ∃ cs, s = .select cs) ∧
    (Block.communicates b = true ↔
      Block.quiet b = false ∨ ∃ m f xs, .invoke m f xs ∈ Block.surface b ∧ xs ≠ []) ∧
    (Block.communicates b = false → Block.quiet b = true) ∧
    ((∀ m f xs, .invoke m f xs ∈ Block.surface b → xs = []) →
      Block.communicates b = !Block.quiet b) :=
  ⟨b.quiet_eq_false_iff_shown, b.communicates_iff_passed, quiet_of_not_communicates,
    communicates_eq_not_quiet⟩

/-- Arguments are passed only in a case of the choice, which stands on the surface. -/
def dispatch : Block :=
  [.branch (some "i < n") [.invoke .call "log" []]
    [.select [[.act (.perform .receive "jobs"), .invoke .spawn "work" [.shared "job"]]]]]

/-- A body without arguments, actions or choices. -/
def pause : Block := [.branch none [.invoke .call "log" []] [.tau]]

theorem communicates_exact_dispatch :
    (Block.communicates pause = false ∧ Block.quiet pause = true) ∧
    (∀ m f xs, .invoke m f xs ∈ Block.surface dispatch → xs = []) ∧
    Block.communicates dispatch = !Block.quiet dispatch := by
  have unflagged : Block.communicates pause = false := by decide
  have bare : ∀ m f xs, .invoke m f xs ∈ Block.surface dispatch → xs = [] := by
    simp [dispatch, Block.surface, Statement.surface]
  exact ⟨⟨unflagged, (communicates_exact pause).2.2.1 unflagged⟩, bare,
    (communicates_exact dispatch).2.2.2 bare⟩

/-- With arguments on the surface a quiet body communicates. -/
example : Block.communicates [.branch none [.invoke .call "log" [.shared "x"]] [.tau]] = true ∧
    Block.quiet [.branch none [.invoke .call "log" [.shared "x"]] [.tau]] = true := by
  decide

end Block

namespace Program

variable {p : Program} {log : List String}

/-- Flags that are down say enough: a function that leads only to functions whose flags are down is
silent, whatever happened to the program. -/
theorem History.not_observable (history : History log p) {f : String}
    (unflagged : ∀ g ∈ p.functions, p.Leads f g.name → g.communicates = false) :
    ¬ p.Observable f := by
  rintro ⟨g, member, leads, shown⟩
  have flag : g.communicates = Block.communicates g.body :=
    (history.orderly.functions g member).flag
  have quiet : Block.quiet g.body = true :=
    Block.quiet_of_not_communicates (flag.symm.trans (unflagged g member leads))
  exact (Block.quiet_iff g.body).mp quiet shown

end Program
end ProcessCalculus
