import ProcessCalculus.Proofs.Observable
import ProcessCalculus.Proofs.Repruning

/-!
What is left of a program after some functions went and calls of missing functions were pruned. The
calls left are those between the functions left, and a function left shows what it showed, so a path
of calls is left where all the functions on it are.
-/
namespace ProcessCalculus

open Relation (ReflTransGen TransGen)

/-- The function itself, or what pruning leaves of it where only calls outside `names` may go. -/
def Function.Thins (names : List String) (f g : Function) : Prop :=
  g = f ∨ ∃ kept : String → Bool,
    (∀ h ∈ names, kept h = true) ∧ g = f.withBody (Block.prune kept f.body)

namespace Function.Thins

variable {names fewer : List String} {f g : Function}

theorem name (thins : f.Thins names g) : g.name = f.name := by
  rcases thins with rfl | ⟨kept, -, rfl⟩ <;> rfl

theorem mono (thins : f.Thins names g) (subset : ∀ h ∈ fewer, h ∈ names) : f.Thins fewer g := by
  rcases thins with same | ⟨kept, stays, pruned⟩
  · exact .inl same
  · exact .inr ⟨kept, fun h member => stays h (subset h member), pruned⟩

theorem target_before (thins : f.Thins names g) {h : String} (target : h ∈ Block.targets g.body) :
    h ∈ Block.targets f.body := by
  rcases thins with rfl | ⟨kept, -, rfl⟩
  · exact target
  · change h ∈ Block.targets (Block.prune kept f.body) at target
    rw [Block.targets_prune] at target
    exact (List.mem_filter.mp target).1

theorem target_left (thins : f.Thins names g) {h : String} (target : h ∈ Block.targets f.body)
    (stays : h ∈ names) : h ∈ Block.targets g.body := by
  rcases thins with rfl | ⟨kept, keeps, rfl⟩
  · exact target
  · change h ∈ Block.targets (Block.prune kept f.body)
    rw [Block.targets_prune]
    exact List.mem_filter.mpr ⟨target, keeps h stays⟩

theorem shows_iff (thins : f.Thins names g) : Block.Shows g.body ↔ Block.Shows f.body := by
  have quiet : Block.quiet g.body = Block.quiet f.body := by
    rcases thins with rfl | ⟨kept, -, rfl⟩
    · rfl
    · exact Block.quiet_prune f.body
  rw [← not_iff_not, ← Block.quiet_iff, ← Block.quiet_iff, quiet]

/-- Pruned down to the names, both give the same function. -/
theorem prune (thins : f.Thins names g) {kept : String → Bool}
    (narrow : ∀ h, kept h = true → h ∈ names) :
    g.withBody (Block.prune kept g.body) = f.withBody (Block.prune kept f.body) := by
  rcases thins with rfl | ⟨before, stays, rfl⟩
  · rfl
  · change f.withBody (Block.prune kept (Block.prune before f.body)) = _
    rw [Block.prune_prune fun h left => stays h (narrow h left)]

end Function.Thins

namespace Program

/-- Some functions of `p`, in order, without calls that `q` does not define. -/
def Remnant (p q : Program) : Prop :=
  ∃ (keep : Function → Bool) (change : Function → Function),
    q.functions = (p.functions.filter keep).map change ∧
      ∀ f ∈ p.functions, f.Thins q.names (change f)

variable {p q r : Program} {f g : String}

namespace Remnant

theorem refl (p : Program) : Remnant p p :=
  ⟨fun _ => true, id, by simp, fun _ _ => .inl rfl⟩

theorem filter (remnant : Remnant p q) {keep : Function → Bool}
    (fewer : r.functions = q.functions.filter keep) : Remnant p r := by
  obtain ⟨before, change, functions, thins⟩ := remnant
  have subset : ∀ h ∈ r.names, h ∈ q.names := by
    intro h member
    obtain ⟨k, inside, same⟩ := mem_names.mp member
    rw [fewer] at inside
    exact mem_names.mpr ⟨k, List.mem_of_mem_filter inside, same⟩
  refine ⟨fun k => keep (change k) && before k, change, ?_, fun k member => ?_⟩
  · rw [fewer, functions, List.filter_map, List.filter_filter]
    rfl
  · exact (thins k member).mono subset

theorem dropUndefined (remnant : Remnant p q) : Remnant p q.dropUndefined := by
  obtain ⟨keep, change, functions, thins⟩ := remnant
  refine ⟨keep, fun k => k.withBody (Block.prune q.contains k.body), ?_, fun k _ => ?_⟩
  · rw [Program.dropUndefined, functions, List.map_map]
    refine List.map_congr_left fun k member => ?_
    exact (thins k (List.mem_of_mem_filter member)).prune fun h => (contains_iff q h).mp
  · rw [names_dropUndefined]
    exact .inr ⟨q.contains, fun h => (contains_iff q h).mpr, rfl⟩

variable (remnant : Remnant p q)
include remnant

theorem before {k : Function} (member : k ∈ q.functions) :
    ∃ h ∈ p.functions, h.Thins q.names k := by
  obtain ⟨keep, change, functions, thins⟩ := remnant
  rw [functions] at member
  obtain ⟨h, inside, rfl⟩ := List.mem_map.mp member
  have defined := List.mem_of_mem_filter inside
  exact ⟨h, defined, thins h defined⟩

theorem names_before (defined : f ∈ q.names) : f ∈ p.names := by
  obtain ⟨k, member, rfl⟩ := mem_names.mp defined
  obtain ⟨h, inside, thins⟩ := remnant.before member
  exact mem_names.mpr ⟨h, inside, thins.name.symm⟩

theorem nodup_names (distinct : p.names.Nodup) : q.names.Nodup := by
  obtain ⟨keep, change, functions, thins⟩ := remnant
  have same : q.names = (p.functions.filter keep).map (·.name) := by
    rw [names, functions, List.map_map]
    exact List.map_congr_left fun k member => (thins k (List.mem_of_mem_filter member)).name
  rw [same]
  exact distinct.sublist (List.filter_sublist.map _)

theorem left (distinct : p.names.Nodup) {h : Function} (member : h ∈ p.functions)
    (stays : h.name ∈ q.names) : ∃ k ∈ q.functions, h.Thins q.names k := by
  obtain ⟨k, inside, same⟩ := mem_names.mp stays
  obtain ⟨h', member', thins⟩ := remnant.before inside
  obtain rfl := eq_of_name distinct member' member (thins.name.symm.trans same)
  exact ⟨k, inside, thins⟩

/-- Removing undefined calls makes up for all the pruning before it. -/
theorem functions_dropUndefined (distinct : p.names.Nodup) : q.dropUndefined.functions =
    (p.functions.filter fun h => q.contains h.name).map fun h =>
      h.withBody (Block.prune q.contains h.body) := by
  obtain ⟨keep, change, functions, thins⟩ := id remnant
  -- with distinct names, to be there by name is to have been kept
  have kept : p.functions.filter (fun h => q.contains h.name) = p.functions.filter keep := by
    refine List.filter_congr fun h member => ?_
    rw [Bool.eq_iff_iff, contains_iff, mem_names, functions]
    constructor
    · rintro ⟨k, inside, same⟩
      obtain ⟨h', inside', rfl⟩ := List.mem_map.mp inside
      obtain ⟨member', keeps⟩ := List.mem_filter.mp inside'
      obtain rfl := eq_of_name distinct member' member ((thins h' member').name.symm.trans same)
      exact keeps
    · intro keeps
      exact ⟨change h, List.mem_map_of_mem (List.mem_filter.mpr ⟨member, keeps⟩),
        (thins h member).name⟩
  rw [kept, Program.dropUndefined, functions, List.map_map]
  refine List.map_congr_left fun h member => ?_
  exact (thins h (List.mem_of_mem_filter member)).prune fun name => (contains_iff q name).mp

/-! Calls and what they lead to. -/

theorem calls_before (calls : q.Calls f g) : p.Calls f g := by
  obtain ⟨caller, member, same, target, defined⟩ := calls
  obtain ⟨h, inside, thins⟩ := remnant.before member
  exact ⟨h, inside, thins.name.symm.trans same, thins.target_before target,
    remnant.names_before defined⟩

theorem leads_before (leads : q.Leads f g) : p.Leads f g :=
  ReflTransGen.mono (fun _ _ calls => remnant.calls_before calls) _ _ leads

theorem onCycle_before (cycle : q.OnCycle f) : p.OnCycle f :=
  TransGen.mono (fun _ _ calls => remnant.calls_before calls) _ _ cycle

theorem led_before {start : String} (led : q.Led start f) : p.Led start f :=
  led.imp remnant.leads_before fun ⟨g, cycle, leads⟩ =>
    ⟨g, remnant.onCycle_before cycle, remnant.leads_before leads⟩

theorem observable_before (observable : q.Observable f) : p.Observable f := by
  obtain ⟨k, member, leads, shown⟩ := observable
  obtain ⟨h, inside, thins⟩ := remnant.before member
  exact ⟨h, inside, thins.name ▸ remnant.leads_before leads, thins.shows_iff.mp shown⟩

variable (distinct : p.names.Nodup)
include distinct

theorem calls_left (calls : p.Calls f g) (callerStays : f ∈ q.names) (calleeStays : g ∈ q.names) :
    q.Calls f g := by
  obtain ⟨caller, member, rfl, target, -⟩ := calls
  obtain ⟨k, inside, thins⟩ := remnant.left distinct member callerStays
  exact ⟨k, inside, thins.name, thins.target_left target calleeStays, calleeStays⟩

/-- A path is left where the functions on it are. -/
theorem leads_left (leads : p.Leads f g)
    (stay : ∀ h, p.Leads f h → p.Leads h g → h ∈ q.names) : q.Leads f g := by
  induction leads using ReflTransGen.head_induction_on with
  | refl => exact .refl
  | head calls rest ih =>
    have caller := stay _ .refl (.head calls rest)
    have callee := stay _ (.single calls) rest
    exact .head (remnant.calls_left distinct calls caller callee)
      (ih fun h first later => stay h (.head calls first) later)

theorem onCycle_left (cycle : p.OnCycle f)
    (stay : ∀ h, p.Leads f h → p.Leads h f → h ∈ q.names) : q.OnCycle f := by
  obtain ⟨g, calls, back⟩ := TransGen.head'_iff.mp cycle
  have first := remnant.calls_left distinct calls (stay f .refl .refl) (stay g (.single calls) back)
  have rest := remnant.leads_left distinct back fun h before later =>
    stay h (.head calls before) later
  exact TransGen.head'_iff.mpr ⟨g, first, rest⟩

theorem observable_left (observable : p.Observable f)
    (stay : ∀ h, p.Leads f h → p.Observable h → h ∈ q.names) : q.Observable f := by
  obtain ⟨h, member, leads, shown⟩ := observable
  have shows : p.Observable h.name := ⟨h, member, .refl, shown⟩
  obtain ⟨k, inside, thins⟩ := remnant.left distinct member (stay h.name leads shows)
  refine ⟨k, inside, ?_, thins.shows_iff.mpr shown⟩
  rw [thins.name]
  exact remnant.leads_left distinct leads fun u before later =>
    stay u before (shows.of_leads later)

end Remnant
end Program
end ProcessCalculus
