import ProcessCalculus.Proofs.Survivors

/-!
The passes in any order and any number. Each keeps what is to stay, and whatever a pass takes away
is gone for good, so a run with both removals and a last look for undefined calls ends where
shrinking does. What is left then gives no pass anything to do.
-/
namespace ProcessCalculus.Program

variable {p q : Program} {f : String}

/-- The passes of shrinking. -/
inductive Pass
  | silence
  | cascade
  | undefined
deriving DecidableEq

/-- Runs a pass on a program with an entry. -/
def Pass.apply (p : Program) : Pass → Program
  | .silence => p.withoutSilent fun f => f.name ≠ entry
  | .cascade => p.dropUncalled entry
  | .undefined => p.dropUndefined

/-! What one pass does. -/

theorem Keeps.apply (keeps : Keeps p q) (distinct : p.names.Nodup) (defined : entry ∈ p.names)
    (pass : Pass) : Keeps p (Pass.apply q pass) := by
  cases pass with
  | silence => exact keeps.withoutSilent distinct (· ≠ entry) fun f => Survives.spared defined
  | cascade => exact keeps.dropUncalled distinct defined
  | undefined => exact keeps.dropUndefined

theorem names_apply (distinct : q.names.Nodup) {pass : Pass}
    (left : f ∈ (Pass.apply q pass).names) : f ∈ q.names := by
  cases pass with
  | silence => exact ((mem_names_withoutSilent distinct (· ≠ entry)).mp left).1
  | cascade => exact ((mem_names_dropUncalled distinct entry).mp left).1
  | undefined =>
    rw [Pass.apply, names_dropUndefined] at left
    exact left

/-! What many do. -/

theorem Keeps.foldl_apply (keeps : Keeps p q) (distinct : p.names.Nodup)
    (defined : entry ∈ p.names) (passes : List Pass) : Keeps p (passes.foldl Pass.apply q) := by
  induction passes generalizing q with
  | nil => exact keeps
  | cons pass passes ih => exact ih (keeps.apply distinct defined pass)

theorem names_foldl_apply (keeps : Keeps p q) (distinct : p.names.Nodup)
    (defined : entry ∈ p.names) {passes : List Pass}
    (left : f ∈ (passes.foldl Pass.apply q).names) : f ∈ q.names := by
  induction passes generalizing q with
  | nil => exact left
  | cons pass passes ih =>
    have later := ih (keeps.apply distinct defined pass) left
    exact names_apply (keeps.remnant.nodup_names distinct) later

/-- What is left in the end was left by every pass on the way. -/
theorem names_of_mem_passes (distinct : p.names.Nodup) (defined : entry ∈ p.names) {pass : Pass}
    {passes : List Pass} (member : pass ∈ passes) :
    ∃ q, Keeps p q ∧ ∀ f ∈ (passes.foldl Pass.apply p).names, f ∈ (Pass.apply q pass).names := by
  -- the pass is run on what those before it leave, and those after it only take away
  obtain ⟨before, after, rfl⟩ := List.append_of_mem member
  have keeps := (Keeps.refl p).foldl_apply distinct defined before
  refine ⟨_, keeps, ?_⟩
  intro f left
  rw [List.foldl_append, List.foldl_cons] at left
  exact names_foldl_apply (keeps.apply distinct defined pass) distinct defined left

theorem reduces_foldl_apply (distinct : p.names.Nodup) (defined : entry ∈ p.names)
    {passes : List Pass} (silence : .silence ∈ passes) (cascade : .cascade ∈ passes) :
    Reduces p (passes.foldl Pass.apply p) := by
  refine ⟨(Keeps.refl p).foldl_apply distinct defined passes, ?_⟩
  intro f left
  obtain ⟨q, keepsQ, heard⟩ := names_of_mem_passes distinct defined silence
  obtain ⟨r, keepsR, called⟩ := names_of_mem_passes distinct defined cascade
  have nodupQ := keepsQ.remnant.nodup_names distinct
  have nodupR := keepsR.remnant.nodup_names distinct
  obtain ⟨-, shown⟩ := (mem_names_withoutSilent nodupQ (· ≠ entry)).mp (heard f left)
  obtain ⟨-, led⟩ := (mem_names_dropUncalled nodupR entry).mp (called f left)
  apply survives_of_led defined (keepsR.remnant.led_before led)
  exact shown.imp_left keepsQ.remnant.observable_before

/-- Any run of passes in which both removals take part and undefined calls go last is shrinking. -/
theorem foldl_apply_eq_shrink (distinct : p.names.Nodup) (started : p.contains entry = true)
    {passes : List Pass} (silence : .silence ∈ passes) (cascade : .cascade ∈ passes)
    (last : passes.getLast? = some .undefined) : passes.foldl Pass.apply p = p.shrink := by
  have defined := (contains_iff p entry).mp started
  obtain ⟨earlier, rfl⟩ := List.getLast?_eq_some_iff.mp last
  have before : ∀ pass ∈ earlier ++ [.undefined], pass ≠ .undefined → pass ∈ earlier := by
    intro pass member other
    exact (List.mem_append.mp member).resolve_right fun final => other (List.mem_singleton.mp final)
  have reduces := reduces_foldl_apply distinct defined (before _ silence nofun)
    (before _ cascade nofun)
  obtain ⟨q, shrinks, result⟩ := exists_reduces distinct
  rw [List.foldl_append, result]
  exact reduces.dropUndefined_eq distinct shrinks

theorem foldl_apply_eq_shrink_tickers : tickers.names.Nodup ∧ tickers.contains entry = true ∧
    [Pass.undefined, .cascade, .cascade, .silence, .undefined].foldl Pass.apply tickers =
      tickers.shrink :=
  ⟨by decide, by decide, foldl_apply_eq_shrink (by decide) (by decide) (by decide) (by decide) rfl⟩

/-! A fixed point. -/

theorem dropUndefined_dropUndefined (p : Program) :
    p.dropUndefined.dropUndefined = p.dropUndefined := by
  apply congrArg Program.mk
  rw [contains_dropUndefined, dropUndefined, List.map_map]
  apply List.map_congr_left
  intro f _
  apply congrArg f.withBody
  exact Block.prune_prune (fun _ stays => stays) f.body

theorem hasUndefined_dropUndefined (p : Program) : p.dropUndefined.hasUndefined = false := by
  rw [hasUndefined, contains_dropUndefined, List.any_eq_false]
  intro f member
  obtain ⟨g, -, rfl⟩ := List.mem_map.mp member
  rw [Bool.not_eq_true]
  exact Block.prunable_prune g.body

/-- No pass finds anything to do: none removes a function, reports that it did or changes the
program. -/
structure Settled (p : Program) : Prop where
  silence : p.contains entry = true →
    Id.run (p.dropSilent fun f => pure (f.name ≠ entry)) = ([], p)
  silenceAll : p.contains entry = false → Id.run (p.dropSilent fun _ => pure true) = ([], p)
  cascade : p.contains entry = true →
    (p.uncalledPlaces entry).any = false ∧ p.dropUncalled entry = p
  undefined : p.hasUndefined = false ∧ p.dropUndefined = p

theorem Settled.shrink_eq (settled : p.Settled) : p.shrink = p := by
  rw [shrink]
  split
  · next started =>
    rw [withoutSilent, settled.silence started, (settled.cascade started).2, settled.undefined.2]
  · next absent =>
    rw [withoutSilent, settled.silenceAll (Bool.eq_false_of_not_eq_true absent),
      settled.undefined.2]

theorem contains_entry_shrink (distinct : p.names.Nodup) :
    p.shrink.contains entry = p.contains entry := by
  rw [Bool.eq_iff_iff, contains_iff, contains_iff, mem_names_shrink distinct]
  apply and_iff_left_of_imp
  intro defined
  exact (survives_iff defined).mpr (.inl rfl)

theorem silence_shrink (distinct : p.names.Nodup) (given : String → Bool)
    (spared : ∀ f, p.Survives f → p.Observable f ∨ given f = false) :
    Id.run (p.shrink.dropSilent fun h => pure (given h.name)) = ([], p.shrink) := by
  have reduces := reduces_shrink distinct
  apply run_dropSilent_eq_self (nodup_names_shrink distinct)
  intro h member
  have survives := reduces.only h.name (mem_names.mpr ⟨h, member, rfl⟩)
  exact (spared h.name survives).imp_left (reduces.observable distinct survives)

theorem cascade_shrink (distinct : p.names.Nodup) (defined : entry ∈ p.names) :
    (p.shrink.uncalledPlaces entry).any = false ∧ p.shrink.dropUncalled entry = p.shrink := by
  have reduces := reduces_shrink distinct
  apply dropUncalled_eq_self (nodup_names_shrink distinct)
  intro h member
  have survives := reduces.only h.name (mem_names.mpr ⟨h, member, rfl⟩)
  exact reduces.led distinct defined survives

theorem undefined_shrink (distinct : p.names.Nodup) :
    p.shrink.hasUndefined = false ∧ p.shrink.dropUndefined = p.shrink := by
  obtain ⟨q, -, result⟩ := exists_reduces distinct
  rw [result]
  exact ⟨hasUndefined_dropUndefined q, dropUndefined_dropUndefined q⟩

/-- Shrinking leaves a program that no pass and no further shrinking changes. -/
theorem shrink_settled (distinct : p.names.Nodup) :
    p.shrink.Settled ∧ p.shrink.shrink = p.shrink := by
  have settled : p.shrink.Settled := by
    refine ⟨?_, ?_, ?_, undefined_shrink distinct⟩
    · intro started
      rw [contains_entry_shrink distinct, contains_iff] at started
      exact silence_shrink distinct (· ≠ entry) fun f => Survives.spared started
    · intro absent
      rw [contains_entry_shrink distinct, ← Bool.not_eq_true, contains_iff] at absent
      exact silence_shrink distinct (fun _ => true) fun f survives =>
        .inl ((survives_iff_observable absent).mp survives)
    · intro started
      rw [contains_entry_shrink distinct, contains_iff] at started
      exact cascade_shrink distinct started
  exact ⟨settled, settled.shrink_eq⟩

theorem shrink_settled_tickers : tickers.names.Nodup ∧
    tickers.shrink.Settled ∧ tickers.shrink.shrink = tickers.shrink :=
  ⟨by decide, shrink_settled (by decide)⟩

end ProcessCalculus.Program
