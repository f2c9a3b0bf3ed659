import Std.Data.HashSet

/-!
First-in first-out queues of distinct items. The items wait in two lists, the rear one reversed,
and a hash set remembers which items wait, so that an item already waiting is not queued again.
-/
namespace ProcessCalculus

structure WorkQueue (α : Type) [BEq α] [Hashable α] where
  front : List α
  rear : List α
  waiting : Std.HashSet α

namespace WorkQueue

variable {α : Type} [BEq α] [Hashable α]

def empty : WorkQueue α := ⟨[], [], ∅⟩

/-- The waiting items, the one that has waited longest first. -/
def toList (q : WorkQueue α) : List α := q.front ++ q.rear.reverse

def size (q : WorkQueue α) : Nat := q.front.length + q.rear.length

def isEmpty (q : WorkQueue α) : Bool := q.front.isEmpty && q.rear.isEmpty

/-- Queues an item unless it is waiting already. -/
def push (q : WorkQueue α) (a : α) : WorkQueue α :=
  if q.waiting.contains a then q
  else { q with rear := a :: q.rear, waiting := q.waiting.insert a }

/-- Queues the items one after the other. -/
def extend (q : WorkQueue α) (items : List α) : WorkQueue α := items.foldl push q

/-- Takes the item that has waited longest. -/
def pop? (q : WorkQueue α) : Option (α × WorkQueue α) :=
  match q.front with
  | a :: front => some (a, { q with front, waiting := q.waiting.erase a })
  | [] =>
    match q.rear.reverse with
    | [] => none
    | a :: front => some (a, ⟨front, [], q.waiting.erase a⟩)

@[simp] theorem toList_empty : (empty : WorkQueue α).toList = [] := rfl

@[simp] theorem length_toList (q : WorkQueue α) : q.toList.length = q.size := by
  simp [toList, size]

@[simp] theorem isEmpty_toList (q : WorkQueue α) : q.toList.isEmpty = q.isEmpty := by
  rw [Bool.eq_iff_iff]
  simp [toList, isEmpty]

theorem toList_push (q : WorkQueue α) (a : α) :
    (q.push a).toList = if q.waiting.contains a then q.toList else q.toList ++ [a] := by
  unfold push
  split <;> simp [toList]

theorem pop?_eq_none_iff {q : WorkQueue α} : q.pop? = none ↔ q.toList = [] := by
  unfold pop? toList
  cases q.front with
  | cons a front => simp
  | nil =>
    simp only [List.nil_append]
    cases q.rear.reverse <;> simp

theorem toList_pop {q r : WorkQueue α} {a : α} (h : q.pop? = some (a, r)) :
    q.toList = a :: r.toList := by
  unfold pop? at h
  unfold toList
  cases front : q.front with
  | cons b rest =>
    rw [front] at h
    cases h
    rfl
  | nil =>
    rw [front] at h
    simp only [List.nil_append]
    cases rear : q.rear.reverse with
    | nil => simp [rear] at h
    | cons b rest =>
      simp only [rear] at h
      cases h
      simp

theorem size_pop {q r : WorkQueue α} {a : α} (h : q.pop? = some (a, r)) :
    q.size = r.size + 1 := by
  rw [← length_toList, toList_pop h, List.length_cons, length_toList]

end WorkQueue
end ProcessCalculus
