import Mathlib.Data.List.Dedup
import Mathlib.Data.List.Induction
import ProcessCalculus.Proofs.WorkQueue

/-!
What has happened to the items of a queue. A journal notes beside the queue each item that starts to
wait and each that is taken. The items are taken in the order in which they started to wait, the
others wait, and an item that started to wait has been taken since then or waits still.
-/
namespace ProcessCalculus

variable {α : Type}

/-- A demand on a queue. -/
inductive WorkQueue.Demand (α : Type)
  | push (item : α)
  | extend (items : List α)
  | pop

/-- The items that a demand asks to queue. -/
def WorkQueue.Demand.items : WorkQueue.Demand α → List α
  | .push a => [a]
  | .extend items => items
  | .pop => []

/-- The items that some demands ask to queue, repetitions included. -/
def WorkQueue.asked (demands : List (WorkQueue.Demand α)) : List α :=
  demands.flatMap WorkQueue.Demand.items

/-- An item starts to wait, or it is taken. -/
inductive Event (α : Type)
  | queued (item : α)
  | taken (item : α)
deriving DecidableEq

namespace Event

def queued? : Event α → Option α
  | queued a => some a
  | taken _ => none

def taken? : Event α → Option α
  | queued _ => none
  | taken a => some a

/-- An item started to wait, and since it did so last it has been taken or waits. -/
def Since (events : List (Event α)) (waiting : List α) (a : α) : Prop :=
  ∃ before after, events = before ++ queued a :: after ∧ queued a ∉ after ∧
    (a ∈ waiting ∨ taken a ∈ after)

theorem Since.now (events : List (Event α)) {waiting : List α} {a : α} (waits : a ∈ waiting) :
    Since (events ++ [queued a]) waiting a :=
  ⟨events, [], rfl, List.not_mem_nil, .inl waits⟩

/-- Another event leaves an item waiting, unless it takes the item. -/
theorem Since.later {events : List (Event α)} {waiting left : List α} {a : α} {e : Event α}
    (since : Since events waiting a) (other : queued a ≠ e)
    (waits : a ∈ waiting → a ∈ left ∨ taken a = e) : Since (events ++ [e]) left a := by
  obtain ⟨before, after, rfl, last, either⟩ := since
  refine ⟨before, after ++ [e], by simp, ?_, ?_⟩
  · rw [List.mem_append, List.mem_singleton, not_or]
    exact ⟨last, other⟩
  · rcases either with waiting | gone
    · rcases waits waiting with still | rfl
      · exact .inl still
      · exact .inr (List.mem_append_right _ List.mem_cons_self)
    · exact .inr (List.mem_append_left _ gone)

end Event

variable [DecidableEq α] [Hashable α]

namespace WorkQueue

/-- The queue after a demand. -/
def serve (q : WorkQueue α) : Demand α → WorkQueue α
  | .push a => q.push a
  | .extend items => q.extend items
  | .pop =>
    match q.pop? with
    | some (_, rest) => rest
    | none => q

/-- The queue after some demands on an empty one. -/
def after (demands : List (Demand α)) : WorkQueue α := demands.foldl serve empty

variable {q : WorkQueue α} {a : α}

/-- Pushing an item that waits changes nothing. -/
theorem Faithful.push_of_mem (faithful : q.Faithful) (waits : a ∈ q.toList) : q.push a = q :=
  if_pos ((faithful.waiting a).mpr waits)

/-- Any other item waits behind the others. -/
theorem Faithful.toList_push_of_not_mem (faithful : q.Faithful) (fresh : a ∉ q.toList) :
    (q.push a).toList = q.toList ++ [a] := by
  rw [toList_push, if_neg (mt (faithful.waiting a).mp fresh)]

/-- Distinct items that do not wait yet do so behind the others, in their order. -/
theorem Faithful.toList_extend_of_fresh (faithful : q.Faithful) {items : List α}
    (apart : items.Nodup) (fresh : ∀ a ∈ items, a ∉ q.toList) :
    (q.extend items).toList = q.toList ++ items := by
  induction items generalizing q with
  | nil => exact (List.append_nil _).symm
  | cons a items ih =>
    obtain ⟨new, others⟩ := List.nodup_cons.mp apart
    have first := faithful.toList_push_of_not_mem (fresh a List.mem_cons_self)
    refine (ih (faithful.push a) others fun b member waits => ?_).trans ?_
    · rw [first, List.mem_append, List.mem_singleton] at waits
      rcases waits with waits | rfl
      · exact fresh b (List.mem_cons_of_mem _ member) waits
      · exact new member
    · rw [first, ← List.append_cons]

/-- The item to be taken is the one that has waited longest. -/
theorem toList_eq_cons_iff {rest : List α} :
    q.toList = a :: rest ↔ ∃ r, q.pop? = some (a, r) ∧ r.toList = rest := by
  constructor
  · intro waiting
    cases popped : q.pop? with
    | none =>
      rw [pop?_eq_none_iff.mp popped] at waiting
      contradiction
    | some taken =>
      have split := (toList_pop popped).symm.trans waiting
      obtain ⟨same, others⟩ := List.cons.inj split
      exact ⟨taken.2, congrArg some (Prod.ext same rfl), others⟩
  · rintro ⟨r, popped, rfl⟩
    exact toList_pop popped

theorem after_extend (demands : List (Demand α)) (items : List α) :
    after (demands ++ [.extend items]) = after (demands ++ items.map .push) := by
  rw [after, after, List.foldl_append, List.foldl_append, List.foldl_map]
  rfl

end WorkQueue

open WorkQueue (Demand)

/-- A queue and what has happened to its items. -/
structure Journal (α : Type) [BEq α] [Hashable α] where
  queue : WorkQueue α
  events : List (Event α)

namespace Journal

def blank : Journal α := ⟨.empty, []⟩

/-- Queues an item, which is noted where it was not waiting. -/
def push (j : Journal α) (a : α) : Journal α :=
  ⟨j.queue.push a, if j.queue.waiting.contains a then j.events else j.events ++ [.queued a]⟩

def extend (j : Journal α) (items : List α) : Journal α := items.foldl push j

def pop? (j : Journal α) : Option (α × Journal α) :=
  match j.queue.pop? with
  | some (a, rest) => some (a, ⟨rest, j.events ++ [.taken a]⟩)
  | none => none

def serve (j : Journal α) : Demand α → Journal α
  | .push a => j.push a
  | .extend items => j.extend items
  | .pop =>
    match j.pop? with
    | some (_, rest) => rest
    | none => j

/-- The journal of some demands on an empty queue. -/
def after (demands : List (Demand α)) : Journal α := demands.foldl serve blank

/-- The items that started to wait, in order. -/
def queued (j : Journal α) : List α := j.events.filterMap Event.queued?

/-- The items that were taken, in order. -/
def taken (j : Journal α) : List α := j.events.filterMap Event.taken?

theorem queue_extend (j : Journal α) (items : List α) :
    (j.extend items).queue = j.queue.extend items := by
  induction items generalizing j with
  | nil => rfl
  | cons a items ih => exact ih (j.push a)

theorem taken_extend (j : Journal α) (items : List α) : (j.extend items).taken = j.taken := by
  induction items generalizing j with
  | nil => rfl
  | cons a items ih =>
    refine (ih (j.push a)).trans ?_
    rw [taken, taken, push]
    split
    · rfl
    · exact List.filterMap_append.trans (List.append_nil _)

theorem queue_serve (j : Journal α) (d : Demand α) : (j.serve d).queue = j.queue.serve d := by
  cases d with
  | push a => rfl
  | extend items => exact queue_extend j items
  | pop =>
    rw [serve, pop?, WorkQueue.serve]
    cases j.queue.pop? <;> rfl

theorem queue_after (demands : List (Demand α)) :
    (after demands).queue = WorkQueue.after demands := by
  induction demands using List.reverseRecOn with
  | nil => rfl
  | append_singleton demands d ih =>
    rw [after, WorkQueue.after, List.foldl_concat, List.foldl_concat, queue_serve]
    exact congrArg (WorkQueue.serve · d) ih

theorem pop?_eq_none_iff {j : Journal α} : j.pop? = none ↔ j.queue.toList = [] := by
  rw [← WorkQueue.pop?_eq_none_iff, pop?]
  cases j.queue.pop? <;> simp

/-- The items are taken in the order in which they started to wait, and the others wait. -/
structure Kept (j : Journal α) : Prop where
  faithful : j.queue.Faithful
  order : j.queued = j.taken ++ j.queue.toList
  since : ∀ a ∈ j.queued, Event.Since j.events j.queue.toList a

theorem kept_blank : (blank : Journal α).Kept :=
  ⟨WorkQueue.faithful_empty, rfl, fun _ member => absurd member List.not_mem_nil⟩

variable {j k : Journal α} {a : α}

namespace Kept

theorem taken_sublist (kept : j.Kept) : j.taken.Sublist j.queued :=
  kept.order ▸ List.sublist_append_left _ _

theorem mem_queued_of_waiting (kept : j.Kept) (waits : a ∈ j.queue.toList) : a ∈ j.queued :=
  kept.order ▸ List.mem_append_right _ waits

theorem push_of_mem (kept : j.Kept) (waits : a ∈ j.queue.toList) : j.push a = j := by
  rw [Journal.push, kept.faithful.push_of_mem waits,
    if_pos ((kept.faithful.waiting a).mpr waits)]

theorem push_of_not_mem (kept : j.Kept) (fresh : a ∉ j.queue.toList) :
    (j.push a).events = j.events ++ [.queued a] ∧ (j.push a).queued = j.queued ++ [a] ∧
      (j.push a).taken = j.taken ∧ (j.push a).queue.toList = j.queue.toList ++ [a] := by
  have events : (j.push a).events = j.events ++ [.queued a] :=
    if_neg (mt (kept.faithful.waiting a).mp fresh)
  rw [queued, taken, events, List.filterMap_append, List.filterMap_append]
  exact ⟨rfl, rfl, List.append_nil _, kept.faithful.toList_push_of_not_mem fresh⟩

theorem pop (kept : j.Kept) (took : j.pop? = some (a, k)) :
    j.queue.toList = a :: k.queue.toList ∧ k.events = j.events ++ [.taken a] ∧
      k.queued = j.queued ∧ k.taken = j.taken ++ [a] ∧ k.queue.Faithful := by
  rw [pop?] at took
  split at took
  · next popped =>
    cases took
    rw [queued, taken, List.filterMap_append, List.filterMap_append]
    exact ⟨WorkQueue.toList_pop popped, rfl, List.append_nil _, rfl, kept.faithful.pop popped⟩
  · contradiction

theorem push (kept : j.Kept) (a : α) : (j.push a).Kept := by
  by_cases waits : a ∈ j.queue.toList
  · rw [kept.push_of_mem waits]
    exact kept
  · obtain ⟨events, queued, taken, toList⟩ := kept.push_of_not_mem waits
    refine ⟨kept.faithful.push a, ?_, fun b member => ?_⟩
    · rw [queued, taken, toList, kept.order, List.append_assoc]
    · rw [events, toList]
      by_cases same : b = a
      · subst same
        exact .now _ (List.mem_append_right _ List.mem_cons_self)
      · rw [queued, List.mem_append, List.mem_singleton] at member
        refine (kept.since b (member.resolve_right same)).later ?_ ?_
        · exact fun again => same (Event.queued.inj again)
        · exact fun waits => .inl (List.mem_append_left _ waits)

theorem extend (kept : j.Kept) (items : List α) : (j.extend items).Kept := by
  induction items generalizing j with
  | nil => exact kept
  | cons a items ih => exact ih (kept.push a)

theorem of_pop (kept : j.Kept) (took : j.pop? = some (a, k)) : k.Kept := by
  obtain ⟨waiting, events, queued, taken, faithful⟩ := kept.pop took
  refine ⟨faithful, ?_, fun b member => ?_⟩
  · rw [queued, taken, kept.order, waiting, List.append_assoc]
    rfl
  · rw [queued] at member
    rw [events]
    refine (kept.since b member).later (fun same => nomatch same) fun waits => ?_
    rw [waiting, List.mem_cons] at waits
    exact waits.symm.imp_right (congrArg Event.taken)

theorem serve (kept : j.Kept) (d : Demand α) : (j.serve d).Kept := by
  cases d with
  | push a => exact kept.push a
  | extend items => exact kept.extend items
  | pop =>
    rw [Journal.serve]
    split
    · next took => exact kept.of_pop took
    · exact kept

/-- What starts to wait is some of what is asked for, and all of that has started to wait. -/
theorem queued_push (kept : j.Kept) (a : α) :
    (j.push a).queued.Sublist (j.queued ++ [a]) ∧
      ∀ b, b ∈ (j.push a).queued ↔ b ∈ j.queued ∨ b ∈ [a] := by
  by_cases waits : a ∈ j.queue.toList
  · rw [kept.push_of_mem waits]
    refine ⟨List.sublist_append_left _ _, fun b => ⟨.inl, ?_⟩⟩
    rintro (before | same)
    · exact before
    · exact List.mem_singleton.mp same ▸ kept.mem_queued_of_waiting waits
  · rw [(kept.push_of_not_mem waits).2.1]
    exact ⟨.refl _, fun b => List.mem_append⟩

theorem queued_extend (kept : j.Kept) (items : List α) :
    (j.extend items).queued.Sublist (j.queued ++ items) ∧
      ∀ b, b ∈ (j.extend items).queued ↔ b ∈ j.queued ∨ b ∈ items := by
  induction items generalizing j with
  | nil =>
    rw [List.append_nil]
    exact ⟨.refl _, fun b => (or_iff_left List.not_mem_nil).symm⟩
  | cons a items ih =>
    obtain ⟨fewer, members⟩ := kept.queued_push a
    obtain ⟨later, all⟩ := ih (kept.push a)
    rw [List.append_cons]
    refine ⟨later.trans (fewer.append_right items), fun b => (all b).trans ?_⟩
    rw [members, List.mem_singleton, List.mem_cons, or_assoc]

theorem queued_serve (kept : j.Kept) (d : Demand α) :
    (j.serve d).queued.Sublist (j.queued ++ d.items) ∧
      ∀ b, b ∈ (j.serve d).queued ↔ b ∈ j.queued ∨ b ∈ d.items := by
  cases d with
  | push a => exact kept.queued_push a
  | extend items => exact kept.queued_extend items
  | pop =>
    have same : (j.serve .pop).queued = j.queued := by
      rw [Journal.serve]
      split
      · next took => exact (kept.pop took).2.2.1
      · rfl
    rw [same, Demand.items, List.append_nil]
    exact ⟨.refl _, fun b => (or_iff_left List.not_mem_nil).symm⟩

end Kept

theorem kept_after (demands : List (Demand α)) : (after demands).Kept := by
  induction demands using List.reverseRecOn with
  | nil => exact kept_blank
  | append_singleton demands d ih =>
    rw [after, List.foldl_concat]
    exact ih.serve d

theorem queued_after (demands : List (Demand α)) :
    (after demands).queued.Sublist (WorkQueue.asked demands) ∧
      ∀ b, b ∈ (after demands).queued ↔ b ∈ WorkQueue.asked demands := by
  induction demands using List.reverseRecOn with
  | nil => exact ⟨.refl _, fun b => .rfl⟩
  | append_singleton demands d ih =>
    obtain ⟨fewer, members⟩ := (kept_after demands).queued_serve d
    rw [after, List.foldl_concat, WorkQueue.asked, List.flatMap_append, List.flatMap_singleton]
    refine ⟨fewer.trans (ih.1.append_right _), fun b => (members b).trans ?_⟩
    rw [ih.2, List.mem_append]
    rfl

end Journal

namespace WorkQueue

/-- Whatever has been demanded of a queue, its items are distinct and the hash set holds exactly
them; an item that waits is not queued again, any other is, behind the others; the one taken is the
one that has waited longest, and there is none only where nothing waits. Every item asked for has
been taken since it last started to wait, or waits, and none is taken more often than asked for. -/
theorem after_fifo (demands : List (Demand α)) :
    (after demands).toList.Nodup ∧
    (∀ a, (after demands).waiting.contains a = true ↔ a ∈ (after demands).toList) ∧
    (∀ a ∈ (after demands).toList, (after demands).push a = after demands) ∧
    (∀ a ∉ (after demands).toList,
      ((after demands).push a).toList = (after demands).toList ++ [a]) ∧
    (∀ items, after (demands ++ [.extend items]) = after (demands ++ items.map .push)) ∧
    (∀ a rest, (after demands).toList = a :: rest ↔
      ∃ r, (after demands).pop? = some (a, r) ∧ r.toList = rest) ∧
    ((after demands).pop? = none ↔ (after demands).toList = []) ∧
    (after demands).size = (after demands).toList.dedup.length ∧
    ((after demands).isEmpty = true ↔ (after demands).size = 0) ∧
    (Journal.after demands).queue = after demands ∧
    (Journal.after demands).queued = (Journal.after demands).taken ++ (after demands).toList ∧
    (∀ a ∈ asked demands,
      Event.Since (Journal.after demands).events (after demands).toList a) ∧
    ∀ a, (Journal.after demands).taken.count a ≤ (asked demands).count a := by
  have kept := Journal.kept_after demands
  obtain ⟨fewer, all⟩ := Journal.queued_after demands
  have often := (kept.taken_sublist.trans fewer).count_le
  have queue := Journal.queue_after demands
  obtain ⟨faithful, order, since⟩ := kept
  rw [queue] at faithful order since
  refine ⟨faithful.distinct, faithful.waiting, fun a => faithful.push_of_mem,
    fun a => faithful.toList_push_of_not_mem, after_extend demands,
    fun a rest => toList_eq_cons_iff, pop?_eq_none_iff, ?_, ?_, queue, order,
    fun a member => since a ((all a).mpr member), often⟩
  · rw [faithful.distinct.dedup, length_toList]
  · rw [← isEmpty_toList, ← length_toList, List.isEmpty_iff, List.length_eq_zero_iff]

/-- An item asked for again after it was taken, and others asked for while they wait. -/
def refills : List (Demand Int) :=
  [.extend [7, 7, 8, 7], .pop, .push 7, .push 8, .pop, .pop, .push 9]

theorem toList_refills : (after refills).toList = [9] := by cbv

theorem after_fifo_refills :
    9 ∈ (after refills).toList ∧ (after refills).push 9 = after refills ∧
    7 ∉ (after refills).toList ∧ ((after refills).push 7).toList = [9, 7] ∧
    7 ∈ asked refills ∧ Event.Since (Journal.after refills).events [9] 7 ∧
    (Journal.after refills).taken.count 7 ≤ 4 := by
  obtain ⟨-, -, again, behind, -, -, -, -, -, -, -, since, often⟩ := after_fifo refills
  rw [toList_refills] at again behind since ⊢
  have member : (9 : Int) ∈ [9] := by decide
  have fresh : (7 : Int) ∉ [9] := by decide
  have wanted : 7 ∈ asked refills := by decide
  have count : (asked refills).count 7 = 4 := by decide
  exact ⟨member, again 9 member, fresh, behind 7 fresh, wanted, since 7 wanted, count ▸ often 7⟩

end WorkQueue
end ProcessCalculus
