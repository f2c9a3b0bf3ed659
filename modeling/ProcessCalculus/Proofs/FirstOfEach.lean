import Mathlib.Data.List.Basic

/-!
Adding the items of a list one by one unless their key is taken keeps the first of each key.
-/
namespace ProcessCalculus

variable {α β γ : Type}

/-- Induction where the items after the first may be filtered before they are gone through. -/
@[elab_as_elim]
theorem filter_induction {P : List α → Prop} (nil : P [])
    (cons : ∀ a items, (∀ keep, P (items.filter keep)) → P (a :: items)) (items : List α) :
    P items := by
  induction bound : items.length using Nat.strongRecOn generalizing items with
  | ind n ih =>
    cases items with
    | nil => exact nil
    | cons a items =>
      refine cons a items fun keep => ih _ ?_ _ rfl
      have fewer := List.length_filter_le keep items
      rw [List.length_cons] at bound
      omega

theorem eraseDupsBy_sublist (r : α → α → Bool) (items : List α) :
    (items.eraseDupsBy r).Sublist items := by
  induction items using filter_induction with
  | nil => exact List.nil_sublist _
  | cons b items ih =>
    rw [List.eraseDupsBy_cons]
    exact ((ih _).trans List.filter_sublist).cons_cons b

theorem mem_of_mem_eraseDupsBy {r : α → α → Bool} {items : List α} {a : α}
    (member : a ∈ items.eraseDupsBy r) : a ∈ items :=
  (eraseDupsBy_sublist r items).subset member

theorem eraseDupsBy_ne_nil {r : α → α → Bool} {items : List α} (nonempty : items ≠ []) :
    items.eraseDupsBy r ≠ [] := by
  cases items with
  | nil => contradiction
  | cons a items =>
    rw [List.eraseDupsBy_cons]
    exact List.cons_ne_nil _ _

theorem eraseDupsBy_map (f : α → β) {r : β → β → Bool} {s : α → α → Bool}
    (agree : ∀ a b, r (f a) (f b) = s a b) (items : List α) :
    (items.map f).eraseDupsBy r = (items.eraseDupsBy s).map f := by
  induction items using filter_induction with
  | nil => rfl
  | cons a items ih =>
    rw [List.map_cons, List.eraseDupsBy_cons, List.eraseDupsBy_cons, List.map_cons, ← ih,
      List.filter_map]
    congr 3
    apply List.filter_congr
    intro b _
    rw [Function.comp_apply, agree]

variable [DecidableEq γ]

theorem foldl_first (key : α → γ) (items acc : List α) :
    items.foldl (fun acc a => if key a ∈ acc.map key then acc else acc ++ [a]) acc =
      acc ++ (items.filter fun a => key a ∉ acc.map key).eraseDupsBy fun a b => key a == key b := by
  induction items generalizing acc with
  | nil => simp
  | cons a items ih =>
    rw [List.foldl_cons, ih]
    by_cases taken : key a ∈ acc.map key
    · rw [if_pos taken, List.filter_cons_of_neg (by simpa using taken)]
    · rw [if_neg taken, List.filter_cons_of_pos (by simpa using taken), List.eraseDupsBy_cons,
        List.append_assoc, List.singleton_append, List.filter_filter]
      congr 3
      apply List.filter_congr
      intro b _
      rw [Bool.eq_iff_iff]
      simp [and_comm]

theorem foldl_first_nil (key : α → γ) (items : List α) :
    items.foldl (fun acc a => if key a ∈ acc.map key then acc else acc ++ [a]) [] =
      items.eraseDupsBy fun a b => key a == key b := by
  have all : items.filter (fun a => key a ∉ ([] : List α).map key) = items := by simp
  rw [foldl_first, List.nil_append, all]

theorem eraseDups_of_nodup [DecidableEq α] {items : List α} (distinct : items.Nodup) :
    items.eraseDups = items := by
  induction items with
  | nil => rfl
  | cons a items ih =>
    obtain ⟨fresh, rest⟩ := List.nodup_cons.mp distinct
    have apart : (items.filter fun b => !b == a) = items := by
      apply List.filter_eq_self.mpr
      intro b member
      have other : b ≠ a := fun same => fresh (same ▸ member)
      simpa using other
    rw [List.eraseDups_cons, apart, ih rest]

theorem nodup_eraseDups [DecidableEq α] (items : List α) : items.eraseDups.Nodup := by
  induction items using filter_induction with
  | nil => exact List.nodup_nil
  | cons a items ih =>
    rw [List.eraseDups_cons]
    refine List.nodup_cons.mpr ⟨fun again => ?_, ih _⟩
    have other := (List.mem_filter.mp (List.mem_eraseDups.mp again)).2
    simp at other

theorem eraseDups_map (key : α → γ) (items : List α) : (items.map key).eraseDups =
    (items.eraseDupsBy fun a b => key a == key b).map key :=
  eraseDupsBy_map key (fun _ _ => rfl) items

/-- Items that a partial map keeps apart are repeated where their images are. -/
theorem eraseDups_filterMap [DecidableEq α] {f : α → Option γ}
    (apart : ∀ a b c, f a = some c → f b = some c → a = b) (items : List α) :
    (items.filterMap f).eraseDups = items.eraseDups.filterMap f := by
  induction items using filter_induction with
  | nil => rfl
  | cons a items ih =>
    rw [List.eraseDups_cons]
    cases image : f a with
    | none =>
      have others : (items.filter fun b => !b == a).filterMap f = items.filterMap f := by
        rw [List.filterMap_filter]
        apply List.filterMap_congr
        intro b _
        by_cases same : b = a
        · simp [same, image]
        · simp [same]
      rw [List.filterMap_cons_none image, List.filterMap_cons_none image, ← ih, others]
    | some c =>
      have others : (items.filter fun b => !b == a).filterMap f =
          (items.filterMap f).filter fun d => !d == c := by
        rw [List.filterMap_filter, List.filter_filterMap]
        apply List.filterMap_congr
        intro b _
        cases found : f b with
        | none => simp
        | some d =>
          have agree : b = a ↔ d = c := by
            constructor
            · rintro rfl
              exact Option.some.inj (found.symm.trans image)
            · rintro rfl
              exact apart b a d found image
          rw [Option.filter_some]
          by_cases same : b = a
          · simp [same, agree.mp same]
          · simp [same, mt agree.mpr same]
      rw [List.filterMap_cons_some image, List.filterMap_cons_some image, List.eraseDups_cons,
        ← ih, others]

/-- Nothing is left out exactly where no two items have the same key. -/
theorem length_eraseDupsBy_iff (key : α → γ) (items : List α) :
    (items.eraseDupsBy fun a b => key a == key b).length = items.length ↔
      (items.map key).Nodup := by
  constructor
  · intro whole
    rw [← (eraseDupsBy_sublist _ items).eq_of_length whole, ← eraseDups_map]
    exact nodup_eraseDups _
  · intro distinct
    have same := congrArg List.length (eraseDups_map key items)
    rw [eraseDups_of_nodup distinct, List.length_map, List.length_map] at same
    exact same.symm

theorem eraseDupsBy_of_nodup {key : α → γ} {items : List α} (distinct : (items.map key).Nodup) :
    (items.eraseDupsBy fun a b => key a == key b) = items :=
  (eraseDupsBy_sublist _ items).eq_of_length ((length_eraseDupsBy_iff key items).mpr distinct)

end ProcessCalculus
