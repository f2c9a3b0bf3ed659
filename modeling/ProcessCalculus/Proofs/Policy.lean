import ProcessCalculus.Proofs.Silence

/-!
What a policy is asked, and what goes. The policy is asked about each function that is not
observable, once and in the order of declaration, whatever effects its answers have; the functions
that it gives up go and the others stay as they are.
-/
namespace ProcessCalculus

section Choice

variable {m : Type → Type} [Monad m] {α β : Type}

/-- The items that were answered with yes. -/
def chosen (items : List α) (answers : List Bool) : List α :=
  ((items.zip answers).filter (·.2)).map (·.1)

theorem chosen_map (f : α → β) (items : List α) (answers : List Bool) :
    chosen (items.map f) answers = (chosen items answers).map f := by
  simp only [chosen, List.zip_map_left, List.filter_map, List.map_map]
  rfl

theorem chosen_answered (test : α → Bool) (items : List α) :
    chosen items (items.map test) = items.filter test := by
  induction items with
  | nil => rfl
  | cons a items ih =>
    rw [chosen] at ih ⊢
    cases answer : test a <;> simp [answer, ih]

theorem chosen_sublist (items : List α) (answers : List Bool) :
    (chosen items answers).Sublist items := by
  induction items generalizing answers with
  | nil => exact List.nil_sublist _
  | cons a items ih =>
    cases answers with
    | nil => exact List.nil_sublist _
    | cons answer answers =>
      cases answer with
      | true => exact (ih answers).cons_cons a
      | false => exact (ih answers).cons a

theorem filterAuxM_eq [LawfulMonad m] (ask : α → m Bool) (items acc : List α) :
    List.filterAuxM ask items acc = (do
      let answers ← items.mapM ask
      pure ((chosen items answers).reverse ++ acc)) := by
  induction items generalizing acc with
  | nil => simp [List.filterAuxM, chosen]
  | cons a items ih =>
    simp only [List.filterAuxM, List.mapM_cons, ih, bind_assoc, pure_bind]
    congr 1
    funext answer
    congr 1
    funext answers
    cases answer <;> simp [chosen]

/-- A filter with effects asks about every item once, in order, before it answers. -/
theorem filterM_eq [LawfulMonad m] (ask : α → m Bool) (items : List α) :
    items.filterM ask = (do
      let answers ← items.mapM ask
      pure (chosen items answers)) := by
  rw [List.filterM, filterAuxM_eq]
  simp

end Choice

namespace Program

variable {p : Program}

open Classical in
/-- The functions that are not observable, in the order of declaration. -/
noncomputable def hidden (p : Program) : List Function :=
  p.functions.filter fun f => ¬ p.Observable f.name

theorem mem_hidden {f : Function} : f ∈ p.hidden ↔ f ∈ p.functions ∧ ¬ p.Observable f.name := by
  classical
  rw [hidden, List.mem_filter, decide_eq_true_iff]

theorem map_silentFunctions (distinct : p.names.Nodup) :
    p.silentFunctions.map Prod.fst = p.hidden := by
  classical
  refine @filter_places p p.silentPlaces.contains (fun f => ¬ p.Observable f.name) fun i f fi => ?_
  rw [Bool.eq_iff_iff, decide_eq_true_iff]
  exact contains_silentPlaces distinct fi

/-- Leaving out the places of the functions that a policy gives up leaves the other functions. -/
theorem without_chosen (distinct : p.names.Nodup) (answers : List Bool) :
    p.without ((chosen p.silentFunctions answers).foldl (fun s (_, i) => s.insert i)
      (BitSet.empty p.size)) = ⟨p.functions.filter (· ∉ chosen p.hidden answers)⟩ := by
  rw [← map_silentFunctions distinct, chosen_map]
  refine congrArg Program.mk (functions_without fun i f fi => ?_)
  have placed : ∀ g j, (g, j) ∈ chosen p.silentFunctions answers → p.functions[j]? = some g := by
    intro g j member
    have silent := (chosen_sublist p.silentFunctions answers).subset member
    exact List.mk_mem_zipIdx_iff_getElem?.mp (List.mem_filter.mp silent).1
  rw [Bool.eq_iff_iff, ((BitSet.packed_empty p.size).foldl_insert _).2.2, BitSet.contains_empty,
    Bool.not_eq_true', decide_eq_false_iff_not, not_not, List.mem_map]
  constructor
  · rintro (none | ⟨-, g, member⟩)
    · contradiction
    · obtain rfl := Option.some.inj ((placed g i member).symm.trans fi)
      exact ⟨(g, i), member, rfl⟩
  · rintro ⟨⟨g, j⟩, member, rfl⟩
    obtain rfl := eq_of_places distinct (placed g j member) fi rfl
    exact .inr ⟨lt_size fi, g, member⟩

theorem dropSilent_eq {m : Type → Type} [Monad m] [LawfulMonad m] (distinct : p.names.Nodup)
    (policy : Function → m Bool) : p.dropSilent policy = (do
      let answers ← p.hidden.mapM policy
      let given := chosen p.hidden answers
      pure (given.map (·.name), ⟨p.functions.filter (· ∉ given)⟩)) := by
  have asked : p.silentFunctions.mapM (fun x => policy x.1) = p.hidden.mapM policy := by
    rw [← map_silentFunctions distinct, List.mapM_map]
    rfl
  rw [dropSilent, filterM_eq]
  simp only [bind_assoc, pure_bind, without_chosen distinct, asked]
  congr 1
  funext answers
  rw [← map_silentFunctions distinct, chosen_map, List.map_map]
  rfl

/-- A policy without effects is a filter on the functions that are not observable. -/
theorem run_dropSilent (distinct : p.names.Nodup) (policy : Function → Bool) :
    Id.run (p.dropSilent fun f => pure (policy f)) =
      ((p.hidden.filter policy).map (·.name),
        ⟨p.functions.filter (· ∉ p.hidden.filter policy)⟩) := by
  rw [dropSilent_eq distinct, List.mapM_pure, pure_bind, chosen_answered]
  rfl

open Classical in
/-- The policy decides about the silent functions and about no other. -/
theorem functions_withoutSilent (distinct : p.names.Nodup) (policy : Function → Bool) :
    (p.withoutSilent policy).functions =
      p.functions.filter fun f => p.Observable f.name ∨ policy f = false := by
  rw [withoutSilent, run_dropSilent distinct]
  apply List.filter_congr
  intro f member
  rw [Bool.eq_iff_iff, decide_eq_true_iff, decide_eq_true_iff, List.mem_filter, mem_hidden,
    not_and_or, not_and, not_not, Bool.not_eq_true]
  exact or_congr_left (imp_iff_right member)

theorem mem_names_withoutSilent (distinct : p.names.Nodup) (given : String → Bool) {f : String} :
    f ∈ (p.withoutSilent fun h => given h.name).names ↔
      f ∈ p.names ∧ (p.Observable f ∨ given f = false) := by
  classical
  rw [mem_names_of_filter (fun f => decide (p.Observable f ∨ given f = false))
    (functions_withoutSilent distinct _), decide_eq_true_iff]

/-- Nothing goes where the policy spares whatever is not observable. -/
theorem run_dropSilent_eq_self (distinct : p.names.Nodup) {policy : Function → Bool}
    (spared : ∀ f ∈ p.functions, p.Observable f.name ∨ policy f = false) :
    Id.run (p.dropSilent fun f => pure (policy f)) = ([], p) := by
  have none : p.hidden.filter policy = [] := by
    rw [List.filter_eq_nil_iff]
    intro f member given
    obtain ⟨inside, silent⟩ := mem_hidden.mp member
    exact Bool.false_ne_true (((spared f inside).resolve_left silent).symm.trans given)
  rw [run_dropSilent distinct, none]
  simp

/-- The policy is asked about the functions that are not observable, each once and in the order of
declaration; those that it gives up go and are named, and the others stay as they are. The set of
silent places settles after finitely many rounds, in whatever order the calls are gone through. -/
theorem dropSilent_exact {m : Type → Type} [Monad m] [LawfulMonad m] (distinct : p.names.Nodup)
    (policy : Function → m Bool) :
    p.dropSilent policy = (do
      let answers ← p.hidden.mapM policy
      let given := chosen p.hidden answers
      pure (given.map (·.name), ⟨p.functions.filter (· ∉ given)⟩)) ∧
    ∀ (g : CallGraph) (s : BitSet), s.Packed →
      (∃ n ≤ s.count, (∀ k < n, g.spreadOnce^[k + 1] s ≠ g.spreadOnce^[k] s) ∧
        g.spreadOnce^[n + 1] s = g.spreadOnce^[n] s ∧ g.spread s = g.spreadOnce^[n] s) ∧
      ∀ h : CallGraph, (∀ call, call ∈ g.calls ↔ call ∈ h.calls) → g.spread s = h.spread s :=
  ⟨dropSilent_eq distinct policy,
    fun g _ packed => ⟨g.spread_ends packed, fun _ => CallGraph.spread_congr packed⟩⟩

/-- Two silent functions that call each other, one that locks in a branch, one that leads to it and
one that calls nothing. -/
def mill : Program :=
  ⟨[.ofBody "turn" [] [.invoke .call "wind" []],
    .ofBody "grind" [] [.branch none [.tau] [.act (.perform .lock "stone")],
      .invoke .call "turn" []],
    .ofBody "wind" [] [.invoke .spawn "turn" [], .tau],
    .ofBody "fill" [] [.invoke .call "grind" [], .invoke .call "gone" []],
    .ofBody "rest" [] [.branch none [] [.tau]]]⟩

/-- Gives up every second function that it is asked about. -/
def everySecond (_ : Function) : StateM Bool Bool := modifyGet fun second => (second, !second)

theorem dropSilent_exact_mill : mill.names.Nodup ∧
    mill.dropSilent everySecond = (do
      let answers ← mill.hidden.mapM everySecond
      let given := chosen mill.hidden answers
      pure (given.map (·.name), ⟨mill.functions.filter (· ∉ given)⟩)) ∧
    mill.quietPlaces.Packed ∧
    (∃ n ≤ mill.quietPlaces.count,
      (∀ k < n, mill.callGraph.spreadOnce^[k + 1] mill.quietPlaces ≠
        mill.callGraph.spreadOnce^[k] mill.quietPlaces) ∧
      mill.callGraph.spreadOnce^[n + 1] mill.quietPlaces =
        mill.callGraph.spreadOnce^[n] mill.quietPlaces ∧
      mill.callGraph.spread mill.quietPlaces = mill.callGraph.spreadOnce^[n] mill.quietPlaces) := by
  obtain ⟨asked, settles⟩ := dropSilent_exact (p := mill) (by decide) everySecond
  have packed := mill.packed_quietPlaces
  exact ⟨by decide, asked, packed, (settles mill.callGraph mill.quietPlaces packed).1⟩

example : ((mill.dropSilent everySecond).run false).1.1 = ["wind"] := by cbv

end Program
end ProcessCalculus
