import ProcessCalculus.Proofs.Rendering

/-!
Reading undoes rendering. The text of a printable program has a derivation tree, so it is read as
what the text stands for; what is read is printable again, and so is what shrinking leaves of it.
-/
namespace ProcessCalculus.Program

variable {p : Program}

theorem declared_definitions (formals : ∀ f ∈ p.functions, (Parameter.formals f.parameters).Nodup) :
    declared (p.functions.map Function.definition) = p.canonical := by
  have same : ∀ f g : Function,
      (f.definition.name == g.definition.name) = (f.writtenName == g.writtenName) :=
    fun _ _ => rfl
  rw [declared, eraseDupsBy_map Function.definition same, List.map_map, canonical]
  congr 1
  apply List.map_congr_left
  intro f member
  have once : f.definition.formals.eraseDups = Parameter.formals f.parameters :=
    eraseDups_of_nodup (formals f (mem_of_mem_eraseDupsBy member))
  rw [Function.comp_apply, once, Function.canonical]
  rfl

theorem read_canonical (printable : p.Printable)
    (formals : ∀ f ∈ p.functions, (Parameter.formals f.parameters).Nodup) :
    read p.render = .ok p.canonical := by
  obtain ⟨tree, definitions, spells, -⟩ := spells printable.nonempty printable.functions
  refine read_eq_ok_iff.mpr ⟨⟨tree, spells.tokens.symm⟩, ?_⟩
  rw [definitions, declared_definitions formals]

theorem read_render_of_read {text : String} (accepted : read text = .ok p) :
    read p.render = .ok p.canonical :=
  read_canonical (printable_read accepted) fun _ member => nodup_formals_read accepted member

/-- Reading undoes rendering up to what the text does not keep; what is read can be written, and
what shrinking leaves of a program that can be written can be written unless nothing is left. -/
theorem read_render :
    (∀ p : Program, p.Printable →
      (∀ f ∈ p.functions, (Parameter.formals f.parameters).Nodup) →
      read p.render = .ok p.canonical) ∧
    (∀ text p, read text = .ok p → p.Printable) ∧
    ∀ p : Program, p.Printable → (p.shrink.Printable ↔ p.shrink.functions ≠ []) :=
  ⟨fun _ => read_canonical, fun _ _ => printable_read, fun _ => printable_shrink⟩

/-- A label with a path, a choice within a conditional, and two functions of one written name. -/
def depot : Program :=
  ⟨[.ofBody "depot/main" [⟨"x", "in"⟩, ⟨"y", "out"⟩]
      [.act (.newChannel "queue" "depot/queue" 8),
        .branch none [.select [[.act (.perform .receive "in"), .act (.perform .lock "a/b")]]]
          [.invoke .spawn "depot/main" [⟨"queue", "in"⟩, ⟨"out", "out"⟩]]],
    .ofBody "depot_main" [] []]⟩

theorem printable_depot : depot.Printable := by
  have receive : (Statement.act (.perform .receive "in")).Printable :=
    .act (show Token.IsWord "in" by decide)
  have lock : (Statement.act (.perform .lock "a/b")).Printable :=
    .act (show Token.IsWord (Name.written "a/b") by decide)
  have choice : (Statement.select
      [[.act (.perform .receive "in"), .act (.perform .lock "a/b")]]).Printable :=
    .select (by decide) (by simp [receive, lock])
  have spawn : (Statement.invoke .spawn "depot/main" [⟨"queue", "in"⟩, ⟨"out", "out"⟩]).Printable :=
    .invoke .spawn (by decide) (by decide)
  have channel : (Statement.act (.newChannel "queue" "depot/queue" 8)).Printable :=
    .act ⟨by decide, by decide, by decide⟩
  have branch := Statement.Printable.branch (List.cons_ne_nil _ []) (List.cons_ne_nil _ [])
    (List.forall_mem_singleton.mpr choice) (List.forall_mem_singleton.mpr spawn)
  refine ⟨List.cons_ne_nil _ _, List.forall_mem_cons.mpr ⟨?_, List.forall_mem_singleton.mpr ?_⟩⟩
  · exact ⟨by decide, by decide,
      List.forall_mem_cons.mpr ⟨channel, List.forall_mem_singleton.mpr branch⟩⟩
  · exact ⟨by decide, by decide, by simp [Function.ofBody, Function.withBody]⟩

theorem read_render_depot : depot.Printable ∧
    (∀ f ∈ depot.functions, (Parameter.formals f.parameters).Nodup) ∧
    read depot.render = .ok depot.canonical :=
  ⟨printable_depot, by decide, read_render.1 depot printable_depot (by decide)⟩

end ProcessCalculus.Program
