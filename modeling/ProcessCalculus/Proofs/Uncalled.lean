import ProcessCalculus.Proofs.BitSet
import ProcessCalculus.Proofs.CallGraph
import ProcessCalculus.Proofs.CallRelation
import ProcessCalculus.Proofs.WorkQueue
import ProcessCalculus.Shrink.Uncalled

/-!
The functions that stay are those that the entry or a cycle leads to. A place goes only after all
its callers went, so what went has finite chains of callers only; a place that neither went nor
waits is to be kept or has a caller that is still there.
-/
namespace ProcessCalculus

open Relation (ReflTransGen TransGen)

namespace Cascade

/-- The state of the removal against the calls of the whole graph. -/
structure Sound (g : CallGraph) (n : Nat) (keep : Nat → Bool) (c : Cascade) : Prop where
  faithful : c.queue.Faithful
  packed : c.removed.Packed
  size : c.removed.size = n
  calls : c.calls = g.calls.filter fun call => !c.removed.contains call.1
  within : ∀ v ∈ c.queue.toList, v < n
  ready : ∀ v ∈ c.queue.toList, ∀ a, (a, v) ∈ g.calls → c.removed.contains a = true
  spared : ∀ v, c.removed.contains v = true → keep v = false
  closed : ∀ a v, (a, v) ∈ g.calls → c.removed.contains v = true → c.removed.contains a = true
  chains : ∀ v, c.removed.contains v = true → Acc (fun a b => (a, b) ∈ g.calls) v
  settled : ∀ v < n, c.removed.contains v = true ∨ v ∈ c.queue.toList ∨ keep v = true ∨
    ∃ a, (a, v) ∈ c.calls

variable {g : CallGraph} {n : Nat} {keep : Nat → Bool} {c d : Cascade}

theorem mem_freed {v b : Nat} : b ∈ c.freed v ↔
    (v, b) ∈ c.calls ∧ ∀ a, (a, b) ∈ c.calls → a = v := by
  simp only [freed, callsWithout, List.mem_filter, List.mem_map, List.all_eq_true,
    decide_eq_true_eq]
  constructor
  · rintro ⟨⟨⟨w, b⟩, ⟨call, rfl⟩, rfl⟩, none⟩
    refine ⟨call, fun a caller => ?_⟩
    by_contra other
    exact none (a, b) ⟨caller, other⟩ rfl
  · rintro ⟨call, only⟩
    refine ⟨⟨(v, b), ⟨call, rfl⟩, rfl⟩, ?_⟩
    rintro ⟨a, e⟩ ⟨caller, other⟩ rfl
    exact other (only a caller)

theorem mem_callsWithout {v : Nat} {call : Nat × Nat} :
    call ∈ c.callsWithout v ↔ call ∈ c.calls ∧ call.1 ≠ v := by
  simp [callsWithout]

namespace Sound

theorem mem_calls (sound : Sound g n keep c) (a b : Nat) :
    (a, b) ∈ c.calls ↔ (a, b) ∈ g.calls ∧ ¬ c.removed.contains a = true := by
  rw [sound.calls, List.mem_filter, Bool.not_eq_true', Bool.not_eq_true]

theorem start (numbered : ∀ v < n, v ∈ g.order) (bounded : ∀ v ∈ g.order, v < n) :
    Sound g n keep (.ofGraph g n) := by
  obtain ⟨faithful, members⟩ := WorkQueue.faithful_empty.extend
    (g.order.filter fun place => (g.callers place).isEmpty)
  have waiting : ∀ v, v ∈ (ofGraph g n).queue.toList ↔
      v ∈ g.order ∧ ∀ a, (a, v) ∉ g.calls := by
    intro v
    refine (members v).trans ?_
    simp only [WorkQueue.toList_empty, List.not_mem_nil, false_or, List.mem_filter,
      List.isEmpty_iff, List.eq_nil_iff_forall_not_mem, CallGraph.mem_callers]
  have none : ∀ v, ¬ (ofGraph g n).removed.contains v = true := by
    intro v
    rw [ofGraph, BitSet.contains_empty]
    exact Bool.false_ne_true
  refine ⟨faithful, BitSet.packed_empty n, rfl, ?_, ?_, ?_, ?_, ?_, ?_, ?_⟩
  · refine (List.filter_eq_self.mpr ?_).symm
    intro call _
    rw [Bool.not_eq_true', ← Bool.not_eq_true]
    exact none _
  · intro v member
    exact bounded v ((waiting v).mp member).1
  · intro v member a call
    exact absurd call (((waiting v).mp member).2 a)
  · intro v gone
    exact absurd gone (none v)
  · intro a v _ gone
    exact absurd gone (none v)
  · intro v gone
    exact absurd gone (none v)
  · intro v inside
    by_cases called : ∃ a, (a, v) ∈ g.calls
    · exact .inr (.inr (.inr called))
    · exact .inr (.inl ((waiting v).mpr ⟨numbered v inside, fun a call => called ⟨a, call⟩⟩))

theorem keepNext (sound : Sound g n keep c) {v : Nat} {rest : WorkQueue Nat}
    (taken : c.queue.pop? = some (v, rest)) (kept : keep v = true) :
    Sound g n keep { c with queue := rest } := by
  have split := WorkQueue.toList_pop taken
  have later : ∀ w ∈ rest.toList, w ∈ c.queue.toList := by
    intro w member
    rw [split]
    exact List.mem_cons_of_mem _ member
  refine ⟨sound.faithful.pop taken, sound.packed, sound.size, sound.calls,
    fun w member => sound.within w (later w member), fun w member => sound.ready w (later w member),
    sound.spared, sound.closed, sound.chains, ?_⟩
  intro w inside
  rcases sound.settled w inside with gone | waits | stays | called
  · exact .inl gone
  · rw [split] at waits
    rcases List.mem_cons.mp waits with rfl | waits
    · exact .inr (.inr (.inl kept))
    · exact .inr (.inl waits)
  · exact .inr (.inr (.inl stays))
  · exact .inr (.inr (.inr called))

theorem removeNext (bounded : ∀ a v, (a, v) ∈ g.calls → v < n) (sound : Sound g n keep c)
    {v : Nat} {rest : WorkQueue Nat} (taken : c.queue.pop? = some (v, rest))
    (given : keep v = false) : Sound g n keep
      ⟨c.callsWithout v, rest.extend (c.freed v), c.removed.insert v⟩ := by
  have split := WorkQueue.toList_pop taken
  have head : v ∈ c.queue.toList := split ▸ List.mem_cons_self
  have later : ∀ w ∈ rest.toList, w ∈ c.queue.toList := by
    intro w member
    rw [split]
    exact List.mem_cons_of_mem _ member
  have inside : v < c.removed.size := by
    rw [sound.size]
    exact sound.within v head
  obtain ⟨faithful, members⟩ := (sound.faithful.pop taken).extend (c.freed v)
  have gone : ∀ w, (c.removed.insert v).contains w = true ↔
      c.removed.contains w = true ∨ v = w := by
    intro w
    rw [sound.packed.contains_insert]
    exact or_congr_right (and_iff_right inside)
  refine ⟨faithful, sound.packed.insert v, (BitSet.size_insert _ _).trans sound.size, ?_, ?_, ?_,
    ?_, ?_, ?_, ?_⟩
  · rw [callsWithout, sound.calls, List.filter_filter]
    apply List.filter_congr
    intro call _
    rw [Bool.eq_iff_iff, Bool.and_eq_true, Bool.not_eq_true', Bool.not_eq_true',
      ← Bool.not_eq_true, ← Bool.not_eq_true, gone, decide_eq_true_eq, not_or, and_comm,
      ne_comm]
  · intro w member
    rcases (members w).mp member with waits | free
    · exact sound.within w (later w waits)
    · exact bounded v w ((sound.mem_calls v w).mp (mem_freed.mp free).1).1
  · intro w member a call
    rw [gone]
    rcases (members w).mp member with waits | free
    · exact .inl (sound.ready w (later w waits) a call)
    · by_contra stays
      rw [not_or] at stays
      exact stays.2 ((mem_freed.mp free).2 a ((sound.mem_calls a w).mpr ⟨call, stays.1⟩)).symm
  · intro w went
    rcases (gone w).mp went with went | rfl
    · exact sound.spared w went
    · exact given
  · intro a w call went
    rw [gone]
    rcases (gone w).mp went with went | rfl
    · exact .inl (sound.closed a w call went)
    · exact .inl (sound.ready v head a call)
  · intro w went
    rcases (gone w).mp went with went | rfl
    · exact sound.chains w went
    · exact ⟨v, fun a call => sound.chains a (sound.ready v head a call)⟩
  · intro w small
    rcases sound.settled w small with went | waits | stays | ⟨a, call⟩
    · exact .inl ((gone w).mpr (.inl went))
    · rw [split] at waits
      rcases List.mem_cons.mp waits with rfl | waits
      · exact .inl ((gone w).mpr (.inr rfl))
      · exact .inr (.inl ((members w).mpr (.inl waits)))
    · exact .inr (.inr (.inl stays))
    · -- a caller other than `v` is still there, or `v` was the last one and `w` is freed
      by_cases others : ∃ b, (b, w) ∈ c.calls ∧ b ≠ v
      · obtain ⟨b, call, other⟩ := others
        exact .inr (.inr (.inr ⟨b, mem_callsWithout.mpr ⟨call, other⟩⟩))
      · have only : ∀ b, (b, w) ∈ c.calls → b = v := by
          intro b caller
          by_contra other
          exact others ⟨b, caller, other⟩
        have free : w ∈ c.freed v := mem_freed.mpr ⟨only a call ▸ call, only⟩
        exact .inr (.inl ((members w).mpr (.inr free)))

theorem step (bounded : ∀ a v, (a, v) ∈ g.calls → v < n) (sound : Sound g n keep c)
    (next : c.step keep = some d) : Sound g n keep d := by
  rw [Cascade.step] at next
  split at next
  · contradiction
  · next v rest taken =>
    split at next
    · next kept =>
      cases next
      exact sound.keepNext taken kept
    · next given =>
      cases next
      exact sound.removeNext bounded taken (by simpa using given)

theorem run (bounded : ∀ a v, (a, v) ∈ g.calls → v < n) (sound : Sound g n keep c) :
    Sound g n keep (c.run keep) ∧ (c.run keep).queue.toList = [] := by
  fun_induction Cascade.run keep c with
  | case1 c ended =>
    refine ⟨sound, ?_⟩
    rw [← WorkQueue.pop?_eq_none_iff]
    rw [Cascade.step] at ended
    split at ended
    · assumption
    · split at ended <;> contradiction
  | case2 c next advance ih => exact ih (sound.step bounded advance)

/-- Where nothing waits, a place stays if and only if a kept place or a cycle leads to it. -/
theorem stays_iff (bounded : ∀ a v, (a, v) ∈ g.calls → a < n ∧ v < n)
    (sound : Sound g n keep c) (ended : c.queue.toList = []) {v : Nat} (inside : v < n) :
    ¬ c.removed.contains v = true ↔
      (∃ u, u < n ∧ keep u = true ∧ ReflTransGen (fun a b => (a, b) ∈ g.calls) u v) ∨
      ∃ u, TransGen (fun a b => (a, b) ∈ g.calls) u u ∧
        ReflTransGen (fun a b => (a, b) ∈ g.calls) u v := by
  constructor
  · intro stays
    rcases acc_or_cycle (fun a b call => (bounded a b call).1) v with chains | cycle
    · left
      induction chains with
      | intro w _ ih =>
        rcases sound.settled w inside with gone | waits | kept | ⟨a, call⟩
        · exact absurd gone stays
        · simp [ended] at waits
        · exact ⟨w, inside, kept, .refl⟩
        · obtain ⟨call, there⟩ := (sound.mem_calls a w).mp call
          obtain ⟨u, small, kept, path⟩ := ih a call (bounded a w call).1 there
          exact ⟨u, small, kept, path.tail call⟩
    · exact .inr cycle
  · intro led gone
    have before : ∀ u, ReflTransGen (fun a b => (a, b) ∈ g.calls) u v →
        c.removed.contains u = true := by
      intro u path
      induction path using ReflTransGen.head_induction_on with
      | refl => exact gone
      | head call _ ih => exact sound.closed _ _ call ih
    rcases led with ⟨u, -, kept, path⟩ | ⟨u, cycle, path⟩
    · have spared := sound.spared u (before u path)
      rw [kept] at spared
      contradiction
    · exact not_acc_of_cycle cycle path (sound.chains v gone)

end Sound
end Cascade

namespace Program

variable {p : Program}

theorem lt_size_of_call {a v : Nat} (call : (a, v) ∈ p.callGraph.calls) :
    a < p.size ∧ v < p.size := by
  obtain ⟨⟨f, fa⟩, g, gv⟩ := PlaceCalls.functions ((CallGraph.mem_calls p a v).mp call)
  exact ⟨lt_size fa, lt_size gv⟩

theorem cascade_sound (p : Program) (keep : Nat → Bool) :
    Cascade.Sound p.callGraph p.size keep ((Cascade.ofGraph p.callGraph p.size).run keep) ∧
      ((Cascade.ofGraph p.callGraph p.size).run keep).queue.toList = [] := by
  have start : Cascade.Sound p.callGraph p.size keep (.ofGraph p.callGraph p.size) :=
    .start (fun v => (CallGraph.mem_order p v).mpr) (fun v => (CallGraph.mem_order p v).mp)
  exact start.run fun a v call => (lt_size_of_call call).2

theorem packed_uncalledPlaces (p : Program) (entry : String) : (p.uncalledPlaces entry).Packed :=
  (p.cascade_sound _).1.packed

theorem size_uncalledPlaces (p : Program) (entry : String) :
    (p.uncalledPlaces entry).size = p.size :=
  (p.cascade_sound _).1.size

/-- Calls of a place that stays lead to places that stay, so nothing called is removed. -/
theorem contains_uncalledPlaces (distinct : p.names.Nodup) (entry : String) {i : Nat} {f : Function}
    (fi : p.functions[i]? = some f) :
    (p.uncalledPlaces entry).contains i = true ↔ ¬ p.Led entry f.name := by
  obtain ⟨sound, ended⟩ := p.cascade_sound fun place => p.position? entry = some place
  have stays := sound.stays_iff (fun _ _ call => lt_size_of_call call) ended (lt_size fi)
  rw [mem_calls_eq] at stays
  suffices led : ¬ (p.uncalledPlaces entry).contains i = true ↔ p.Led entry f.name from
    (not_iff_comm.mp led).symm
  refine stays.trans (or_congr ?_ ?_)
  · constructor
    · rintro ⟨u, -, kept, path⟩
      obtain ⟨g, gu, rfl⟩ := (position?_eq_some_iff distinct).mp (of_decide_eq_true kept)
      exact (leads_iff distinct gu fi).mp path
    · intro leads
      have defined : f.name ∈ p.names := mem_names.mpr ⟨f, List.mem_of_getElem? fi, rfl⟩
      obtain ⟨u, g, gu, rfl⟩ := exists_place (leads.start_defined defined)
      exact ⟨u, lt_size gu, decide_eq_true ((position?_eq_some_iff distinct).mpr ⟨g, gu, rfl⟩),
        (leads_iff distinct gu fi).mpr leads⟩
  · constructor
    · rintro ⟨u, cycle, path⟩
      obtain ⟨w, first, -⟩ := TransGen.head'_iff.mp cycle
      obtain ⟨⟨g, gu⟩, -⟩ := first.functions
      exact ⟨g.name, (onCycle_iff distinct gu).mp cycle, (leads_iff distinct gu fi).mp path⟩
    · rintro ⟨name, cycle, path⟩
      obtain ⟨_, first, -⟩ := TransGen.head'_iff.mp cycle
      obtain ⟨u, g, gu, rfl⟩ := exists_place first.caller_defined
      exact ⟨u, (onCycle_iff distinct gu).mpr cycle, (leads_iff distinct gu fi).mpr path⟩

open Classical in
theorem functions_dropUncalled (distinct : p.names.Nodup) (entry : String) :
    (p.dropUncalled entry).functions = p.functions.filter fun f => p.Led entry f.name := by
  apply functions_without
  intro i f fi
  rw [Bool.eq_iff_iff, Bool.not_eq_true', decide_eq_false_iff_not]
  exact contains_uncalledPlaces distinct entry fi

theorem mem_names_dropUncalled (distinct : p.names.Nodup) (entry : String) {f : String} :
    f ∈ (p.dropUncalled entry).names ↔ f ∈ p.names ∧ p.Led entry f := by
  classical
  rw [mem_names_of_filter (fun f => decide (p.Led entry f))
    (functions_dropUncalled distinct entry), decide_eq_true_iff]

theorem any_uncalledPlaces_iff (distinct : p.names.Nodup) (entry : String) :
    (p.uncalledPlaces entry).any = true ↔ ∃ f ∈ p.functions, ¬ p.Led entry f.name := by
  rw [(p.packed_uncalledPlaces entry).any_iff]
  constructor
  · rintro ⟨i, gone⟩
    have within : i < p.size := p.size_uncalledPlaces entry ▸ BitSet.lt_size_of_contains gone
    have fi : p.functions[i]? = some p.functions[i] := List.getElem?_eq_getElem within
    exact ⟨_, List.mem_of_getElem? fi, (contains_uncalledPlaces distinct entry fi).mp gone⟩
  · rintro ⟨f, member, lost⟩
    obtain ⟨i, fi⟩ := List.mem_iff_getElem?.mp member
    exact ⟨i, (contains_uncalledPlaces distinct entry fi).mpr lost⟩

theorem mem_functions_dropUncalled (distinct : p.names.Nodup) (entry : String) {f : Function} :
    f ∈ (p.dropUncalled entry).functions ↔ f ∈ p.functions ∧ p.Led entry f.name := by
  classical
  rw [functions_dropUncalled distinct, List.mem_filter, decide_eq_true_iff]

/-- Nothing goes where everything is led to. -/
theorem dropUncalled_eq_self (distinct : p.names.Nodup) {entry : String}
    (led : ∀ f ∈ p.functions, p.Led entry f.name) :
    (p.uncalledPlaces entry).any = false ∧ p.dropUncalled entry = p := by
  classical
  constructor
  · rw [← Bool.not_eq_true, any_uncalledPlaces_iff distinct]
    rintro ⟨f, member, lost⟩
    exact lost (led f member)
  · have all := functions_dropUncalled distinct entry
    rw [List.filter_eq_self.mpr fun f member => decide_eq_true (led f member)] at all
    exact congrArg Program.mk all

/-- The functions that the entry or a cycle leads to stay as they are, in order, and call no
function that goes; it is reported whether one went. -/
theorem dropUncalled_exact (distinct : p.names.Nodup) (entry : String) :
    (∀ f, f ∈ (p.dropUncalled entry).functions ↔ f ∈ p.functions ∧
      (p.Leads entry f.name ∨ ∃ g, p.OnCycle g ∧ p.Leads g f.name)) ∧
    (p.dropUncalled entry).functions.Sublist p.functions ∧
    ((p.uncalledPlaces entry).any = true ↔
      ∃ f ∈ p.functions, f ∉ (p.dropUncalled entry).functions) ∧
    ∀ f ∈ (p.dropUncalled entry).functions, ∀ g ∈ Block.targets f.body, g ∈ p.names →
      g ∈ (p.dropUncalled entry).names := by
  have stays := fun f => mem_functions_dropUncalled (f := f) distinct entry
  refine ⟨stays, p.sublist_functions_without _, ?_, ?_⟩
  · rw [any_uncalledPlaces_iff distinct]
    apply exists_congr
    intro f
    rw [stays, not_and]
    exact and_congr_right fun member => (imp_iff_right member).symm
  · intro f member g target defined
    obtain ⟨inside, led⟩ := (stays f).mp member
    have call := (calls_iff distinct inside).mpr ⟨target, defined⟩
    exact (mem_names_dropUncalled distinct entry).mpr ⟨defined, led.trans (.single call)⟩

/-- A cycle that outlives its only caller and leads to a function, one that calls itself, and one
whose callee has another caller. -/
def relay : Program :=
  ⟨[.ofBody "start" [] [.invoke .call "ping" []],
    .ofBody "ping" [] [.select [[.invoke .call "pong" []]]],
    .ofBody "main.main" [] [.act (.perform .send "x")],
    .ofBody "pong" [] [.invoke .call "ping" [], .invoke .spawn "log" []],
    .ofBody "log" [] [.tau],
    .ofBody "spare" [] [.invoke .call "log" [], .invoke .call "spool" []],
    .ofBody "spool" [] [.tau],
    .ofBody "loop" [] [.branch none [.invoke .call "loop" []] []]]⟩

theorem dropUncalled_exact_relay : relay.names.Nodup ∧
    (∀ f, f ∈ (relay.dropUncalled "main.main").functions ↔ f ∈ relay.functions ∧
      (relay.Leads "main.main" f.name ∨ ∃ g, relay.OnCycle g ∧ relay.Leads g f.name)) ∧
    (relay.dropUncalled "main.main").functions.Sublist relay.functions ∧
    ((relay.uncalledPlaces "main.main").any = true ↔
      ∃ f ∈ relay.functions, f ∉ (relay.dropUncalled "main.main").functions) ∧
    ∀ f ∈ (relay.dropUncalled "main.main").functions, ∀ g ∈ Block.targets f.body,
      g ∈ relay.names → g ∈ (relay.dropUncalled "main.main").names :=
  ⟨by decide, dropUncalled_exact (by decide) "main.main"⟩

example : (relay.dropUncalled "main.main").names = ["ping", "main.main", "pong", "log", "loop"] := by
  cbv

end Program
end ProcessCalculus
