import ProcessCalculus.Proofs.BitSet
import ProcessCalculus.Proofs.CallGraph
import ProcessCalculus.Proofs.Observable

/-!
The silent functions are exactly those that are not observable. A round takes callers out of the set
while it is being scanned, in whatever order the calls were recorded; it never takes out a place of
a set that is closed under calls, and where it takes out nothing the set itself is closed.
-/
namespace ProcessCalculus

open Relation (ReflTransGen)

namespace CallGraph

/-- The work of one call in a round. -/
def release (s : BitSet) (call : Nat × Nat) : BitSet :=
  if s.contains call.2 then s else s.erase call.1

/-- What rounds over some calls do to a set. -/
structure Narrows (calls : List (Nat × Nat)) (s t : BitSet) : Prop where
  packed : t.Packed
  size : t.size = s.size
  within : ∀ i, t.contains i = true → s.contains i = true
  /-- A part that every call stays in is kept. -/
  closed : ∀ part : Nat → Prop, (∀ i, part i → s.contains i = true) →
    (∀ a b, (a, b) ∈ calls → part a → part b) → ∀ i, part i → t.contains i = true

variable {calls : List (Nat × Nat)} {s t u : BitSet}

theorem Narrows.trans (first : Narrows calls s t) (second : Narrows calls t u) :
    Narrows calls s u :=
  ⟨second.packed, second.size.trans first.size,
    fun i member => first.within i (second.within i member),
    fun part inside stays => second.closed part (first.closed part inside stays) stays⟩

theorem release_narrows (packed : s.Packed) {call : Nat × Nat} (member : call ∈ calls) :
    Narrows calls s (release s call) := by
  rw [release]
  split
  · exact ⟨packed, rfl, fun _ inside => inside, fun _ inside _ => inside⟩
  · next outside =>
    refine ⟨packed.erase _, BitSet.size_erase _ _, ?_, ?_⟩
    · intro i inside
      exact ((packed.contains_erase _ _).mp inside).1
    · intro part inside stays i here
      refine (packed.contains_erase _ _).mpr ⟨inside i here, ?_⟩
      rintro rfl
      exact outside (inside _ (stays call.1 call.2 member here))

theorem foldl_release_narrows (packed : s.Packed) (some : List (Nat × Nat))
    (members : ∀ call ∈ some, call ∈ calls) : Narrows calls s (some.foldl release s) := by
  induction some generalizing s with
  | nil => exact ⟨packed, rfl, fun _ inside => inside, fun _ inside _ => inside⟩
  | cons call rest ih =>
    have first := release_narrows packed (members call List.mem_cons_self)
    exact first.trans (ih first.packed fun c member => members c (List.mem_cons_of_mem _ member))

/-- A round that keeps every member has met no call that leaves the set. -/
theorem closed_of_foldl_release (packed : s.Packed)
    (kept : ∀ i, s.contains i = true → (calls.foldl release s).contains i = true) :
    ∀ a b, (a, b) ∈ calls → s.contains a = true → s.contains b = true := by
  induction calls generalizing s with
  | nil => simp
  | cons call rest ih =>
    have first : Narrows (call :: rest) s (release s call) :=
      release_narrows packed List.mem_cons_self
    have later : Narrows rest (release s call) (rest.foldl release (release s call)) :=
      foldl_release_narrows first.packed rest fun _ member => member
    have unchanged : ∀ i, s.contains i = true → (release s call).contains i = true :=
      fun i member => later.within i (kept i member)
    have closed := ih first.packed fun i member => kept i (first.within i member)
    intro a b member inside
    rcases List.mem_cons.mp member with rfl | member
    · by_contra outside
      have taken := unchanged a inside
      rw [release, if_neg outside] at taken
      exact ((packed.contains_erase _ _).mp taken).2 rfl
    · exact first.within b (closed a b member (unchanged a inside))

theorem spreadOnce_narrows (g : CallGraph) (packed : s.Packed) :
    Narrows g.calls s (g.spreadOnce s) :=
  foldl_release_narrows packed g.calls fun _ member => member

theorem spread_narrows (g : CallGraph) (packed : s.Packed) : Narrows g.calls s (g.spread s) := by
  fun_induction spread g s with
  | case1 s next fewer ih =>
    have round := g.spreadOnce_narrows packed
    exact round.trans (ih round.packed)
  | case2 s next same => exact g.spreadOnce_narrows packed

/-- Rounds end at a set that no call leaves, whatever the order of the calls. -/
theorem spread_closed (g : CallGraph) (packed : s.Packed) :
    ∀ a b, (a, b) ∈ g.calls → (g.spread s).contains a = true → (g.spread s).contains b = true := by
  fun_induction spread g s with
  | case1 s next fewer ih =>
    exact ih (g.spreadOnce_narrows packed).packed
  | case2 s next same =>
    have round : Narrows g.calls s next := g.spreadOnce_narrows packed
    have kept : ∀ i, s.contains i = true → next.contains i = true := fun i member =>
      packed.contains_of_count_le round.packed round.size round.within (Nat.le_of_not_lt same)
        member
    intro a b call inside
    have stays := closed_of_foldl_release packed kept a b call (round.within a inside)
    exact kept b stays

/-- A place stays where everything it leads to was in the set. -/
theorem contains_spread_iff (g : CallGraph) (packed : s.Packed) (i : Nat) :
    (g.spread s).contains i = true ↔
      ∀ j, ReflTransGen (fun a b => (a, b) ∈ g.calls) i j → s.contains j = true := by
  have narrows := spread_narrows g packed
  constructor
  · intro inside j path
    apply narrows.within
    induction path with
    | refl => exact inside
    | tail _ last ih => exact spread_closed g packed _ _ last ih
  · intro all
    refine narrows.closed (fun a => ∀ j, ReflTransGen (fun a b => (a, b) ∈ g.calls) a j →
      s.contains j = true) (fun a inside => inside a .refl) ?_ i all
    intro a b call inside j path
    exact inside j (path.head call)

/-- A round that leaves as many members changes nothing. -/
theorem spreadOnce_eq_self (g : CallGraph) (packed : s.Packed)
    (many : s.count ≤ (g.spreadOnce s).count) : g.spreadOnce s = s := by
  have round := g.spreadOnce_narrows packed
  exact round.packed.ext packed round.size fun i => ⟨round.within i,
    packed.contains_of_count_le round.packed round.size round.within many⟩

/-- The rounds end with the first one that changes nothing, and no more rounds change something
than the set has members. -/
theorem spread_ends (g : CallGraph) (packed : s.Packed) : ∃ n ≤ s.count,
    (∀ k < n, g.spreadOnce^[k + 1] s ≠ g.spreadOnce^[k] s) ∧
    g.spreadOnce^[n + 1] s = g.spreadOnce^[n] s ∧ g.spread s = g.spreadOnce^[n] s := by
  fun_induction spread g s with
  | case1 s next fewer ih =>
    have round : Narrows g.calls s next := g.spreadOnce_narrows packed
    obtain ⟨n, few, changes, last, result⟩ := ih round.packed
    refine ⟨n + 1, by omega, ?_, last, result⟩
    rintro (_ | k) small
    · intro same
      have equal : next = s := same
      rw [equal] at fewer
      omega
    · exact changes k (by omega)
  | case2 s next many =>
    have same : next = s := g.spreadOnce_eq_self packed (Nat.le_of_not_lt many)
    exact ⟨0, Nat.zero_le _, fun k small => absurd small (Nat.not_lt_zero k), same, same⟩

/-- Where the rounds end depends on which calls there are and not on their order. -/
theorem spread_congr {g h : CallGraph} (packed : s.Packed)
    (same : ∀ call, call ∈ g.calls ↔ call ∈ h.calls) : g.spread s = h.spread s := by
  have first := spread_narrows g packed
  have second := spread_narrows h packed
  have relation : (fun a b => (a, b) ∈ g.calls) = fun a b => (a, b) ∈ h.calls := by
    funext a b
    exact propext (same (a, b))
  refine first.packed.ext second.packed (first.size.trans second.size.symm) fun i => ?_
  rw [contains_spread_iff g packed, contains_spread_iff h packed, relation]

end CallGraph

namespace Program

variable {p : Program}

theorem quietPlaces_eq (p : Program) : p.quietPlaces =
    (p.functions.zipIdx.filter fun x => Block.quiet x.1.body).foldl (fun s (_, i) => s.insert i)
      (BitSet.empty p.size) :=
  List.foldl_filter.symm

theorem packed_quietPlaces (p : Program) : p.quietPlaces.Packed := by
  rw [quietPlaces_eq]
  exact ((BitSet.packed_empty p.size).foldl_insert _).1

theorem contains_quietPlaces (p : Program) (i : Nat) : p.quietPlaces.contains i = true ↔
    ∃ f, p.functions[i]? = some f ∧ Block.quiet f.body = true := by
  rw [quietPlaces_eq, ((BitSet.packed_empty p.size).foldl_insert _).2.2, BitSet.contains_empty]
  simp only [List.mem_filter, List.mk_mem_zipIdx_iff_getElem?, Bool.false_eq_true, false_or]
  constructor
  · rintro ⟨-, f, found⟩
    exact ⟨f, found⟩
  · rintro ⟨f, found⟩
    exact ⟨lt_size found.1, f, found⟩

/-- A place is found silent where its function is not observable. -/
theorem contains_silentPlaces (distinct : p.names.Nodup) {i : Nat} {f : Function}
    (fi : p.functions[i]? = some f) :
    p.silentPlaces.contains i = true ↔ ¬ p.Observable f.name := by
  rw [silentPlaces, CallGraph.contains_spread_iff _ p.packed_quietPlaces, mem_calls_eq]
  simp only [contains_quietPlaces]
  constructor
  · rintro all ⟨g, member, leads, shown⟩
    obtain ⟨j, gj⟩ := List.mem_iff_getElem?.mp member
    obtain ⟨h, hj, quiet⟩ := all j ((leads_iff distinct fi gj).mpr leads)
    obtain rfl := Option.some.inj (hj.symm.trans gj)
    exact (Block.quiet_iff _).mp quiet shown
  · intro none j path
    have defined : ∃ g, p.functions[j]? = some g := by
      cases path with
      | refl => exact ⟨f, fi⟩
      | tail _ last => exact last.functions.2
    obtain ⟨g, gj⟩ := defined
    refine ⟨g, gj, (Block.quiet_iff _).mpr fun shown => none ?_⟩
    exact ⟨g, List.mem_of_getElem? gj, (leads_iff distinct fi gj).mp path, shown⟩

end Program
end ProcessCalculus
