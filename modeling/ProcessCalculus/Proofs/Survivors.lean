import ProcessCalculus.Proofs.Pruning
import ProcessCalculus.Proofs.Remnant
import ProcessCalculus.Proofs.Policy
import ProcessCalculus.Proofs.Uncalled
import ProcessCalculus.Shrink

/-!
The functions that shrinking leaves, told from the program it starts from. Every function on the way
to an observable one is observable, so no pass takes away a function that has to stay for another:
whatever went before, what stays is observable and led to as in the beginning.
-/
namespace ProcessCalculus.Program

/-- Whether a function stays: the entry does, and what shows something and is led to by the entry or
by a cycle. Without an entry, whatever shows something stays. -/
def Survives (p : Program) (f : String) : Prop :=
  if entry ∈ p.names then
    f = entry ∨ p.Observable f ∧ (p.Leads entry f ∨ ∃ g, p.OnCycle g ∧ p.Leads g f)
  else p.Observable f

variable {p q r : Program} {f g : String}

theorem survives_iff (defined : entry ∈ p.names) :
    p.Survives f ↔ f = entry ∨ p.Observable f ∧ p.Led entry f := by
  rw [Survives, if_pos defined, Led]

theorem survives_iff_observable (undefined : entry ∉ p.names) :
    p.Survives f ↔ p.Observable f := by
  rw [Survives, if_neg undefined]

theorem survives_of_led (defined : entry ∈ p.names) (led : p.Led entry f)
    (shown : p.Observable f ∨ decide (f ≠ entry) = false) : p.Survives f := by
  apply (survives_iff defined).mpr
  rcases shown with observable | start
  · exact .inr ⟨observable, led⟩
  · exact .inl (not_not.mp (of_decide_eq_false start))

/-- The policy that gives up everything but the entry spares what stays. -/
theorem Survives.spared (defined : entry ∈ p.names) (survives : p.Survives f) :
    p.Observable f ∨ decide (f ≠ entry) = false := by
  rcases (survives_iff defined).mp survives with start | ⟨observable, -⟩
  · exact .inr (decide_eq_false (not_not.mpr start))
  · exact .inl observable

/-- What a function that stays leads to is led to as well, and stays where it is observable. -/
theorem Survives.of_leads (survives : p.Survives f) (leads : p.Leads f g)
    (observable : p.Observable g) : p.Survives g := by
  by_cases defined : entry ∈ p.names
  · apply (survives_iff defined).mpr
    rcases (survives_iff defined).mp survives with rfl | ⟨-, led⟩
    · exact .inr ⟨observable, .inl leads⟩
    · exact .inr ⟨observable, led.trans leads⟩
  · exact (survives_iff_observable defined).mpr observable

theorem contains_dropUndefined : p.dropUndefined.contains = p.contains := by
  funext name
  rw [Bool.eq_iff_iff, contains_iff, contains_iff, names_dropUndefined]

/-! What passes may have left of a program. -/

/-- A remnant with every function that is to stay. -/
structure Keeps (p q : Program) : Prop where
  remnant : Remnant p q
  spares : ∀ f ∈ p.names, p.Survives f → f ∈ q.names

namespace Keeps

theorem refl (p : Program) : Keeps p p := ⟨.refl p, fun _ defined _ => defined⟩

variable (keeps : Keeps p q)
include keeps

theorem dropUndefined : Keeps p q.dropUndefined := by
  refine ⟨keeps.remnant.dropUndefined, ?_⟩
  rw [names_dropUndefined]
  exact keeps.spares

variable (distinct : p.names.Nodup)
include distinct

theorem observable (survives : p.Survives f) (shown : p.Observable f) : q.Observable f := by
  apply keeps.remnant.observable_left distinct shown
  intro h leads observable
  exact keeps.spares h observable.defined (survives.of_leads leads observable)

theorem led (defined : entry ∈ p.names) (survives : p.Survives f) : q.Led entry f := by
  -- whatever lies on the way to an observable function is observable and led to, so it stays
  have stays : ∀ h, p.Led entry h → p.Observable h → h ∈ q.names := fun h led observable =>
    keeps.spares h observable.defined ((survives_iff defined).mpr (.inr ⟨observable, led⟩))
  rcases (survives_iff defined).mp survives with rfl | ⟨observable, leads | ⟨g, cycle, leads⟩⟩
  · exact .inl .refl
  · left
    apply keeps.remnant.leads_left distinct leads
    intro h before after
    exact stays h (.inl before) (observable.of_leads after)
  · refine .inr ⟨g, ?_, ?_⟩
    · apply keeps.remnant.onCycle_left distinct cycle
      intro h before after
      exact stays h (.inr ⟨g, cycle, before⟩) (observable.of_leads (after.trans leads))
    · apply keeps.remnant.leads_left distinct leads
      intro h before after
      exact stays h (.inr ⟨g, cycle, before⟩) (observable.of_leads after)

theorem withoutSilent (given : String → Bool)
    (spared : ∀ f, p.Survives f → p.Observable f ∨ given f = false) :
    Keeps p (q.withoutSilent fun h => given h.name) := by
  have nodup := keeps.remnant.nodup_names distinct
  refine ⟨keeps.remnant.filter (functions_withoutSilent nodup _), ?_⟩
  intro f defined survives
  apply (mem_names_withoutSilent nodup given).mpr
  refine ⟨keeps.spares f defined survives, ?_⟩
  exact (spared f survives).imp_left (keeps.observable distinct survives)

theorem dropUncalled (defined : entry ∈ p.names) : Keeps p (q.dropUncalled entry) := by
  have nodup := keeps.remnant.nodup_names distinct
  refine ⟨keeps.remnant.filter (functions_dropUncalled nodup entry), ?_⟩
  intro f member survives
  apply (mem_names_dropUncalled nodup entry).mpr
  exact ⟨keeps.spares f member survives, keeps.led distinct defined survives⟩

end Keeps

/-- A remnant with the functions that are to stay and no others. -/
structure Reduces (p q : Program) : Prop extends Keeps p q where
  only : ∀ f ∈ q.names, p.Survives f

namespace Reduces

theorem mem_names_iff (reduces : Reduces p q) :
    f ∈ q.names ↔ f ∈ p.names ∧ p.Survives f := by
  constructor
  · intro member
    exact ⟨reduces.remnant.names_before member, reduces.only f member⟩
  · rintro ⟨defined, survives⟩
    exact reduces.spares f defined survives

theorem dropUndefined (reduces : Reduces p q) : Reduces p q.dropUndefined := by
  refine ⟨reduces.toKeeps.dropUndefined, ?_⟩
  rw [names_dropUndefined]
  exact reduces.only

/-- Without the calls that are undefined by then, every way leads to the same program. -/
theorem dropUndefined_eq (distinct : p.names.Nodup) (first : Reduces p q) (second : Reduces p r) :
    q.dropUndefined = r.dropUndefined := by
  have same : q.contains = r.contains := by
    funext f
    rw [Bool.eq_iff_iff, contains_iff, contains_iff, first.mem_names_iff, second.mem_names_iff]
  apply congrArg Program.mk
  calc q.dropUndefined.functions
    _ = (p.functions.filter fun h => q.contains h.name).map fun h =>
          h.withBody (Block.prune q.contains h.body) :=
        first.remnant.functions_dropUndefined distinct
    _ = (p.functions.filter fun h => r.contains h.name).map fun h =>
          h.withBody (Block.prune r.contains h.body) := by rw [same]
    _ = r.dropUndefined.functions := (second.remnant.functions_dropUndefined distinct).symm

end Reduces

/-- What is left before the calls of removed functions go. -/
theorem exists_reduces (distinct : p.names.Nodup) :
    ∃ q, Reduces p q ∧ p.shrink = q.dropUndefined := by
  by_cases started : p.contains entry = true
  · have defined := (contains_iff p entry).mp started
    have first : Keeps p (p.withoutSilent fun h => h.name ≠ entry) :=
      (Keeps.refl p).withoutSilent distinct (· ≠ entry) fun f => Survives.spared defined
    refine ⟨_, ⟨first.dropUncalled distinct defined, ?_⟩, by rw [shrink, if_pos started]⟩
    intro f member
    have nodup := first.remnant.nodup_names distinct
    obtain ⟨inside, led⟩ := (mem_names_dropUncalled nodup entry).mp member
    obtain ⟨-, shown⟩ := (mem_names_withoutSilent distinct (· ≠ entry)).mp inside
    exact survives_of_led defined (first.remnant.led_before led) shown
  · have undefined : entry ∉ p.names := fun member => started ((contains_iff p entry).mpr member)
    have first : Keeps p (p.withoutSilent fun _ => true) :=
      (Keeps.refl p).withoutSilent distinct (fun _ => true) fun f survives =>
        .inl ((survives_iff_observable undefined).mp survives)
    refine ⟨_, ⟨first, ?_⟩, by rw [shrink, if_neg started]⟩
    intro f member
    obtain ⟨-, shown⟩ := (mem_names_withoutSilent distinct fun _ => true).mp member
    exact (survives_iff_observable undefined).mpr (shown.resolve_right nofun)

theorem reduces_shrink (distinct : p.names.Nodup) : Reduces p p.shrink := by
  obtain ⟨q, reduces, result⟩ := exists_reduces distinct
  exact result ▸ reduces.dropUndefined

theorem mem_names_shrink (distinct : p.names.Nodup) (f : String) :
    f ∈ p.shrink.names ↔ f ∈ p.names ∧ p.Survives f :=
  (reduces_shrink distinct).mem_names_iff

theorem nodup_names_shrink (distinct : p.names.Nodup) : p.shrink.names.Nodup :=
  (reduces_shrink distinct).remnant.nodup_names distinct

open Classical in
theorem functions_shrink (distinct : p.names.Nodup) :
    p.shrink.functions = (p.functions.filter fun f => p.Survives f.name).map fun f =>
      f.withBody (Block.prune p.shrink.contains f.body) := by
  obtain ⟨q, reduces, result⟩ := exists_reduces distinct
  rw [result, contains_dropUndefined, reduces.remnant.functions_dropUndefined distinct]
  congr 1
  apply List.filter_congr
  intro f member
  have defined : f.name ∈ p.names := mem_names.mpr ⟨f, member, rfl⟩
  rw [Bool.eq_iff_iff, contains_iff, reduces.mem_names_iff, decide_eq_true_iff]
  exact and_iff_right defined

open Classical in
/-- Shrinking in terms of the calls of the program it starts from: which functions stay, and what is
left of their bodies. -/
theorem shrink_exact (distinct : p.names.Nodup) :
    (∀ f, f ∈ p.shrink.names ↔ f ∈ p.names ∧ p.Survives f) ∧
    p.shrink.functions = (p.functions.filter fun f => p.Survives f.name).map fun f =>
      let body := Block.collapse (Block.fillEmpty (Block.dropCalls p.shrink.contains f.body))
      { f with body, communicates := Block.communicates body } := by
  refine ⟨mem_names_shrink distinct, ?_⟩
  rw [functions_shrink distinct]
  apply List.map_congr_left
  intro f _
  rw [Block.prune_eq, Function.withBody]

/-- An entry that shows nothing, a silent function, one that only itself leads to and one that
nothing leads to. -/
def tickers : Program :=
  ⟨[.ofBody entry [] [.invoke .spawn "rest" [], .branch none [.invoke .call "rest" []] []],
    .ofBody "rest" [] [.tau],
    .ofBody "ticker" [] [.act (.perform .send "tick"), .invoke .call "ticker" []],
    .ofBody "lost" [] [.act (.perform .send "tock")]]⟩

open Classical in
theorem shrink_exact_tickers : tickers.names.Nodup ∧
    (∀ f, f ∈ tickers.shrink.names ↔ f ∈ tickers.names ∧ tickers.Survives f) ∧
    tickers.shrink.functions = (tickers.functions.filter
        fun f => tickers.Survives f.name).map fun f =>
      let body := Block.collapse (Block.fillEmpty (Block.dropCalls tickers.shrink.contains f.body))
      { f with body, communicates := Block.communicates body } :=
  ⟨by decide, shrink_exact (by decide)⟩

example : tickers.shrink = ⟨[.ofBody entry [] [.tau],
    .ofBody "ticker" [] [.act (.perform .send "tick"), .invoke .call "ticker" []]]⟩ := by cbv

end ProcessCalculus.Program
