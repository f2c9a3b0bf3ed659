import ProcessCalculus.Proofs.Pruning
import ProcessCalculus.Proofs.RoundTrip

/-!
What a text keeps of a program when it is read and written once more. Writing names a second time
changes nothing, so a text that was written from what a text stands for is written again. Only the
first function of each written name is read: a program whose names differ in nothing but path
separators loses all but one of them.
-/
namespace ProcessCalculus

/-! The text of what a text stands for is that text. -/

theorem Operation.shown_shown (o : Operation) (x : String) : o.shown (o.shown x) = o.shown x := by
  cases o with
  | read | write | lock | unlock | readLock | readUnlock => exact Name.written_written x
  | _ => rfl

theorem Action.canonical_canonical (a : Action) : a.canonical.canonical = a.canonical := by
  cases a with
  | newChannel name label n => simp only [canonical, Name.written_written]
  | perform o x => simp only [canonical, Operation.shown_shown]

theorem Action.render_canonical (a : Action) : a.canonical.render = a.render := by
  cases a with
  | newChannel name label n => simp only [canonical, render, Name.written_written]
  | perform o x =>
    simp only [canonical, render]
    rw [Operation.render_eq, Operation.render_eq, Operation.shown_shown]

theorem Block.canonical_of_members {b : Block}
    (members : ∀ s ∈ b, s.canonical.canonical = s.canonical) :
    Block.canonical (Block.canonical b) = Block.canonical b := by
  rw [canonical_eq_map, canonical_eq_map, List.map_map]
  exact List.map_congr_left members

theorem Block.laid_canonical_of_members {b : Block}
    (members : ∀ s ∈ b, s.canonical.render = s.render) (lead trail : String) :
    Block.laid lead trail (Block.canonical b) = Block.laid lead trail b := by
  rw [laid, canonical_eq_map, List.map_map, laid]
  refine congrArg String.join (List.map_congr_left fun s member => ?_)
  rw [Function.comp_apply, members s member]

theorem Statement.canonical_canonical (s : Statement) : s.canonical.canonical = s.canonical := by
  induction s using Statement.induct with
  | tau => rfl
  | act a => simp only [canonical, Action.canonical_canonical]
  | invoke m f xs => simp only [canonical, Name.written_written, Parameter.actuals_map_shared]
  | branch c t e ht he =>
    simp only [canonical, Block.canonical_of_members ht, Block.canonical_of_members he]
  | select cs hcs =>
    have cases : ∀ b ∈ cs, Block.canonical (Block.canonical b) = Block.canonical b :=
      fun b member => Block.canonical_of_members (hcs b member)
    simp only [canonical, canonicalCases_eq_map, List.map_map]
    exact congrArg Statement.select (List.map_congr_left cases)

theorem Statement.renderCases_canonical {cs : List Block}
    (cases : ∀ b ∈ cs, Block.renderCase (Block.canonical b) = Block.renderCase b) :
    Statement.renderCases (cs.map Block.canonical) = Statement.renderCases cs := by
  induction cs with
  | nil => rfl
  | cons b cs ih =>
    obtain ⟨first, rest⟩ := List.forall_mem_cons.mp cases
    rw [List.map_cons, renderCases, renderCases, first, ih rest]

theorem Statement.render_canonical (s : Statement) : s.canonical.render = s.render := by
  induction s using Statement.induct with
  | tau => rfl
  | act a => exact a.render_canonical
  | invoke m f xs =>
    simp only [canonical, render, Name.written_written, Parameter.actuals_map_shared]
  | branch c t e ht he =>
    simp only [canonical, render, Block.renderInline_eq, Block.laid_canonical_of_members ht,
      Block.laid_canonical_of_members he]
  | select cs hcs =>
    have cases : ∀ b ∈ cs, Block.renderCase (Block.canonical b) = Block.renderCase b := by
      intro b member
      rw [Block.renderCase_eq, Block.renderCase_eq, Block.laid_canonical_of_members (hcs b member)]
    simp only [canonical, canonicalCases_eq_map, render, renderCases_canonical cases]

theorem Block.canonical_orIdle (b : Block) :
    Block.canonical (Block.orIdle b) = Block.orIdle (Block.canonical b) := by
  rw [canonical_eq_map, canonical_eq_map, map_orIdle rfl]

theorem Block.canonical_canonical (b : Block) :
    Block.canonical (Block.canonical b) = Block.canonical b :=
  canonical_of_members fun s _ => s.canonical_canonical

theorem Block.orIdle_orIdle (b : Block) : Block.orIdle (Block.orIdle b) = Block.orIdle b := by
  cases b <;> rfl

namespace Function

variable (f : Function)

theorem writtenName_canonical : f.canonical.writtenName = f.writtenName :=
  Name.written_written f.name

theorem definition_canonical : f.canonical.definition = f.definition := by
  have body : Block.orIdle (Block.canonical f.definition.body) = f.definition.body := by
    rw [definition, Block.canonical_orIdle, Block.canonical_canonical, Block.orIdle_orIdle]
  rw [definition, writtenName_canonical]
  simp only [canonical, Parameter.formals_map_shared, body]
  rfl

theorem canonical_canonical : f.canonical.canonical = f.canonical := by
  rw [canonical, definition_canonical, writtenName_canonical]
  simp only [canonical, Parameter.formals_map_shared]

theorem render_canonical : f.canonical.render = f.render := by
  have lines : Block.renderLines (Block.orIdle f.canonical.body) =
      Block.renderLines (Block.orIdle f.body) := by
    change Block.renderLines (Block.orIdle (Block.orIdle (Block.canonical f.body))) = _
    -- an empty body is written as an inaction, which is what its text stands for
    rw [Block.orIdle_orIdle, ← Block.canonical_orIdle, Block.renderLines_eq, Block.renderLines_eq,
      Block.laid_canonical_of_members fun s _ => s.render_canonical]
  have formals : Parameter.formals f.canonical.parameters = Parameter.formals f.parameters :=
    Parameter.formals_map_shared _
  rw [render, writtenName_canonical, formals]
  exact congrArg _ lines

theorem render_ne_empty : f.render ≠ "" := by
  intro empty
  have length := congrArg String.length empty
  simp only [render, String.length_append] at length
  have some : "def ".length = 4 := rfl
  have none : "".length = 0 := rfl
  omega

end Function

/-! Of functions of one written name only the first is kept. -/

theorem join_length_le {kept all : List String} (part : kept.Sublist all) :
    (String.join kept).length ≤ (String.join all).length := by
  induction part with
  | slnil => exact Nat.le_refl _
  | cons x _ ih =>
    rw [String.join_cons, String.length_append]
    omega
  | cons_cons x _ ih =>
    rw [String.join_cons, String.join_cons, String.length_append, String.length_append]
    omega

/-- Texts that are not empty cannot be left out unnoticed. -/
theorem eq_of_join_eq {kept all : List String} (part : kept.Sublist all)
    (nonempty : ∀ x ∈ all, x ≠ "") (same : String.join kept = String.join all) : kept = all := by
  induction part with
  | slnil => rfl
  | cons x part ih =>
    -- the text of all is longer by that of `x` than what the rest can make up for
    have shorter := join_length_le part
    have length := congrArg String.length same
    rw [String.join_cons, String.length_append] at length
    have empty : x.length = 0 := by omega
    exact absurd (String.length_eq_zero_iff.mp empty) (nonempty x List.mem_cons_self)
  | cons_cons x _ ih =>
    rw [String.join_cons, String.join_cons, String.append_right_inj] at same
    rw [ih (fun y member => nonempty y (List.mem_cons_of_mem x member)) same]

namespace Program

variable (p : Program)

/-- The names as a text of the program writes them. -/
def writtenNames : List String := p.functions.map Function.writtenName

/-- The functions that are read back: the first of each written name. -/
def kept : List Function := p.functions.eraseDupsBy fun f g => f.writtenName == g.writtenName

theorem kept_sublist : p.kept.Sublist p.functions := eraseDupsBy_sublist _ _

theorem nodup_writtenNames_kept : (p.kept.map Function.writtenName).Nodup := by
  rw [kept, ← eraseDups_map]
  exact nodup_eraseDups _

theorem functions_canonical : p.canonical.functions = p.kept.map Function.canonical := rfl

theorem size_canonical : p.canonical.size = p.kept.length := by
  rw [size, functions_canonical, List.length_map]

theorem render_canonical : p.canonical.render = String.join (p.kept.map Function.render) := by
  have each : Function.render ∘ Function.canonical = Function.render :=
    funext Function.render_canonical
  rw [render, functions_canonical, List.map_map, each]

theorem size_canonical_iff : p.canonical.size = p.size ↔ p.writtenNames.Nodup := by
  rw [size_canonical]
  exact length_eraseDupsBy_iff Function.writtenName p.functions

theorem render_canonical_iff : p.canonical.render = p.render ↔ p.canonical.size = p.size := by
  have nonempty : ∀ x ∈ p.functions.map Function.render, x ≠ "" := by
    intro x member
    obtain ⟨f, -, rfl⟩ := List.mem_map.mp member
    exact f.render_ne_empty
  rw [render_canonical, size_canonical]
  constructor
  · intro same
    have whole := eq_of_join_eq (p.kept_sublist.map Function.render) nonempty same
    have length := congrArg List.length whole
    rwa [List.length_map, List.length_map] at length
  · intro whole
    rw [p.kept_sublist.eq_of_length whole]
    rfl

theorem kept_canonical : p.canonical.kept = p.kept.map Function.canonical := by
  have names : Function.writtenName ∘ Function.canonical = Function.writtenName :=
    funext Function.writtenName_canonical
  refine eraseDupsBy_of_nodup ?_
  rw [functions_canonical, List.map_map, names]
  exact p.nodup_writtenNames_kept

theorem canonical_canonical : p.canonical.canonical = p.canonical := by
  have each : Function.canonical ∘ Function.canonical = Function.canonical :=
    funext Function.canonical_canonical
  refine congrArg mk ?_
  change p.canonical.kept.map Function.canonical = p.kept.map Function.canonical
  rw [kept_canonical, List.map_map, each]

/-- The text of a program that was read is read again, as a program whose own text changes nothing
any more. That program has as many functions, and the same text, exactly where no two functions are
written under one name. -/
theorem read_render_stable {text : String} {p : Program} (accepted : read text = .ok p) :
    ∃ q, read p.render = .ok q ∧ read q.render = .ok q ∧
      (q.size = p.size ↔ p.writtenNames.Nodup) ∧ (q.render = p.render ↔ p.writtenNames.Nodup) := by
  have again : read p.render = .ok p.canonical := read_render_of_read accepted
  have settled := read_render_of_read again
  rw [canonical_canonical] at settled
  exact ⟨p.canonical, again, settled, p.size_canonical_iff,
    p.render_canonical_iff.trans p.size_canonical_iff⟩

theorem read_render_stable_path :
    read "def a/b(x): lock x/y; def c(): call a/b(z);" =
      .ok (ofDefinitions [⟨"a/b", ["x"], [.act (.perform .lock "x/y")]⟩,
        ⟨"c", [], [.invoke .call "a/b" [.shared "z"]]⟩]) ∧
    ∃ q, read "def a_b(x):\n    lock x_y;\ndef c():\n    call a_b(z);\n" = .ok q ∧
      read q.render = .ok q ∧ q.size = 2 ∧
      q.render = "def a_b(x):\n    lock x_y;\ndef c():\n    call a_b(z);\n" := by
  have accepted : read "def a/b(x): lock x/y; def c(): call a/b(z);" =
      .ok (ofDefinitions [⟨"a/b", ["x"], [.act (.perform .lock "x/y")]⟩,
        ⟨"c", [], [.invoke .call "a/b" [.shared "z"]]⟩]) := by decide +kernel
  obtain ⟨q, again, settled, size, text⟩ := read_render_stable accepted
  refine ⟨accepted, q, again, settled, size.mpr (by decide +kernel), text.mpr (by decide +kernel)⟩

/-- Two names that differ in nothing but a path separator. -/
def collision : String := "def a/b(): tau; def a_b(): send x;"

/-- The second of the two functions is not read back. -/
theorem not_stable_collision : ∃ p q, read collision = .ok p ∧ read p.render = .ok q ∧
    q.size ≠ p.size ∧ q.render ≠ p.render := by
  refine ⟨ofDefinitions [⟨"a/b", [], [.tau]⟩, ⟨"a_b", [], [.act (.perform .send "x")]⟩],
    ofDefinitions [⟨"a_b", [], [.tau]⟩], ?_, ?_, ?_, ?_⟩ <;> decide +kernel

end Program
end ProcessCalculus
