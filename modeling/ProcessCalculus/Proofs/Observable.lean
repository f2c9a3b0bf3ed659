import ProcessCalculus.Proofs.CallRelation
import ProcessCalculus.Shrink.Silence

/-!
What a body shows by itself, and the functions that lead to such a body. A choice shows whatever its
cases hold; a conditional shows what its branches show.
-/
namespace ProcessCalculus

inductive Statement.Shows : Statement → Prop where
  | act (a : Action) : Shows (.act a)
  | select (cs : List Block) : Shows (.select cs)
  | thenBranch {s : Statement} {c : Option String} {t e : Block} :
      s ∈ t → Shows s → Shows (.branch c t e)
  | elseBranch {s : Statement} {c : Option String} {t e : Block} :
      s ∈ e → Shows s → Shows (.branch c t e)

def Block.Shows (b : Block) : Prop := ∃ s ∈ b, s.Shows

theorem Statement.shows_branch {c : Option String} {t e : Block} :
    (Statement.branch c t e).Shows ↔ Block.Shows t ∨ Block.Shows e := by
  constructor
  · intro shown
    cases shown with
    | thenBranch member shown => exact .inl ⟨_, member, shown⟩
    | elseBranch member shown => exact .inr ⟨_, member, shown⟩
  · rintro (⟨s, member, shown⟩ | ⟨s, member, shown⟩)
    · exact .thenBranch member shown
    · exact .elseBranch member shown

theorem Block.quiet_of_members {b : Block} (members : ∀ s ∈ b, s.quiet = true ↔ ¬ s.Shows) :
    Block.quiet b = true ↔ ¬ Block.Shows b := by
  rw [Block.quiet_eq_all, List.all_eq_true, Block.Shows]
  constructor
  · rintro all ⟨s, member, shown⟩
    exact (members s member).mp (all s member) shown
  · intro none s member
    exact (members s member).mpr fun shown => none ⟨s, member, shown⟩

theorem Statement.quiet_iff (s : Statement) : s.quiet = true ↔ ¬ s.Shows := by
  induction s using Statement.induct with
  | tau => exact ⟨fun _ shown => (nomatch shown), fun _ => rfl⟩
  | act a => exact ⟨fun quiet => Bool.noConfusion quiet, fun none => absurd (.act a) none⟩
  | invoke m f xs => exact ⟨fun _ shown => (nomatch shown), fun _ => rfl⟩
  | branch c t e ht he =>
    rw [quiet, Bool.and_eq_true, Block.quiet_of_members ht, Block.quiet_of_members he,
      shows_branch, not_or]
  | select cs _ => exact ⟨fun quiet => Bool.noConfusion quiet, fun none => absurd (.select cs) none⟩

theorem Block.quiet_iff (b : Block) : Block.quiet b = true ↔ ¬ Block.Shows b :=
  Block.quiet_of_members fun s _ => s.quiet_iff

namespace Program

/-- A function is observable where it leads to a function whose body shows something. -/
def Observable (p : Program) (f : String) : Prop :=
  ∃ g ∈ p.functions, p.Leads f g.name ∧ Block.Shows g.body

variable {p : Program}

theorem Observable.of_leads {f g : String} (leads : p.Leads f g) (observable : p.Observable g) :
    p.Observable f := by
  obtain ⟨h, member, path, shown⟩ := observable
  exact ⟨h, member, leads.trans path, shown⟩

theorem Observable.defined {f : String} (observable : p.Observable f) : f ∈ p.names := by
  obtain ⟨h, member, leads, -⟩ := observable
  exact leads.start_defined (mem_names.mpr ⟨h, member, rfl⟩)

/-- Nothing is seen of functions with quiet bodies that call only each other. -/
theorem not_observable_of_closed (part : String → Prop)
    (closed : ∀ h ∈ p.functions, part h.name →
      Block.quiet h.body = true ∧ ∀ g ∈ Block.targets h.body, part g)
    {f : String} (inside : part f) : ¬ p.Observable f := by
  rintro ⟨g, member, leads, shown⟩
  have stays : ∀ h, p.Leads f h → part h := by
    intro h leads
    induction leads with
    | refl => exact inside
    | tail _ last ih =>
      obtain ⟨caller, defined, rfl, target, -⟩ := last
      exact (closed caller defined ih).2 _ target
  exact (Block.quiet_iff g.body).mp (closed g member (stays g.name leads)).1 shown

end Program
end ProcessCalculus
