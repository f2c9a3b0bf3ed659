import Mathlib.Data.List.Nodup
import Std.Data.HashSet.Lemmas
import ProcessCalculus.WorkQueue

/-!
A queue and its hash set stay in step: the set holds exactly the waiting items, which are distinct,
through every push and pop.
-/
namespace ProcessCalculus.WorkQueue

variable {α : Type} [BEq α] [Hashable α]

structure Faithful (q : WorkQueue α) : Prop where
  distinct : q.toList.Nodup
  waiting : ∀ a, q.waiting.contains a = true ↔ a ∈ q.toList

theorem faithful_empty : (empty : WorkQueue α).Faithful :=
  ⟨.nil, by simp [empty, toList]⟩

namespace Faithful

variable {q r : WorkQueue α}

theorem mem_push (faithful : q.Faithful) (a b : α) :
    b ∈ (q.push a).toList ↔ b ∈ q.toList ∨ b = a := by
  rw [toList_push]
  split
  · next known =>
    have member := (faithful.waiting a).mp known
    exact ⟨.inl, fun h => h.elim id (· ▸ member)⟩
  · simp

variable [LawfulBEq α] [LawfulHashable α]

theorem push (faithful : q.Faithful) (a : α) : (q.push a).Faithful := by
  constructor
  · rw [toList_push]
    split
    · exact faithful.distinct
    · next fresh =>
      have apart : a ∉ q.toList := fun member => fresh ((faithful.waiting a).mpr member)
      exact List.nodup_append.mpr ⟨faithful.distinct, List.nodup_singleton a, by
        intro b hb c hc same
        rw [List.mem_singleton.mp hc] at same
        exact apart (same ▸ hb)⟩
  · intro b
    rw [faithful.mem_push, WorkQueue.push]
    split
    · next known =>
      have member := (faithful.waiting a).mp known
      rw [faithful.waiting]
      exact ⟨.inl, fun h => h.elim id (· ▸ member)⟩
    · rw [Std.HashSet.contains_insert, Bool.or_eq_true, beq_iff_eq, faithful.waiting, or_comm,
        eq_comm]

theorem extend (faithful : q.Faithful) (items : List α) : (q.extend items).Faithful ∧
    ∀ b, b ∈ (q.extend items).toList ↔ b ∈ q.toList ∨ b ∈ items := by
  induction items generalizing q with
  | nil => exact ⟨faithful, by simp [WorkQueue.extend]⟩
  | cons a rest ih =>
    obtain ⟨later, members⟩ := ih (faithful.push a)
    refine ⟨later, fun b => (members b).trans ?_⟩
    rw [faithful.mem_push, List.mem_cons, or_assoc]

theorem pop (faithful : q.Faithful) {a : α} (taken : q.pop? = some (a, r)) : r.Faithful := by
  have split := toList_pop taken
  have distinct := faithful.distinct
  rw [split, List.nodup_cons] at distinct
  have erased : r.waiting = q.waiting.erase a := by
    rw [pop?] at taken
    cases front : q.front with
    | cons b rest =>
      rw [front] at taken
      cases taken
      rfl
    | nil =>
      cases rear : q.rear.reverse with
      | nil => simp [front, rear] at taken
      | cons b rest =>
        simp only [front, rear] at taken
        cases taken
        rfl
  refine ⟨distinct.2, fun b => ?_⟩
  rw [erased, Std.HashSet.contains_erase, Bool.and_eq_true, faithful.waiting, split, List.mem_cons]
  constructor
  · rintro ⟨other, rfl | member⟩
    · simp at other
    · exact member
  · intro member
    refine ⟨?_, .inr member⟩
    rw [Bool.not_eq_true', beq_eq_false_iff_ne]
    rintro rfl
    exact distinct.1 member

end Faithful
end ProcessCalculus.WorkQueue
