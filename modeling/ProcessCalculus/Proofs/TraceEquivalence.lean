import ProcessCalculus.Proofs.Execution
import ProcessCalculus.Proofs.Repruning
import ProcessCalculus.Proofs.Uncalled

/-!
Two passes that nobody can see. Removing undefined calls and removing uncalled functions change
neither way what a function can show: each thread of one program goes with one of the other, and
whatever the one does the other can do, after silent steps of its own. Threads run by themselves, so
it is enough to answer the step of a single thread.
-/
namespace ProcessCalculus

/-- The thread of `q` that goes with a thread of `p` has an answer to each of its steps: a run that
shows the same, after which the threads go with each other again. -/
def Program.Answers (p q : Program) (R : Block → Block → Prop) : Prop :=
  ∀ (u : Statement) (rest d : Block) (actions : List Action) (front : Block)
    (started : List Block), R (u :: rest) d → u.Step p actions front started →
    ∃ t, q.Run {d} actions t ∧ Multiset.Rel R ((front ++ rest) ::ₘ ↑started) t

namespace Program.Answers

variable {p q : Program} {R : Block → Block → Prop} {s s' t : Multiset Block}
  {actions : List Action} (answers : p.Answers q R)
include answers

theorem step (pairs : Multiset.Rel R s t) (step : p.Step s actions s') :
    ∃ t', q.Run t actions t' ∧ Multiset.Rel R s' t' := by
  cases step with
  | thread others here =>
    obtain ⟨d, beside, related, left, rfl⟩ := Multiset.rel_cons_left.mp pairs
    obtain ⟨next, run, found⟩ := answers _ _ _ _ _ _ related here
    have framed := run.frame beside
    rw [Multiset.singleton_add] at framed
    refine ⟨next + beside, framed, ?_⟩
    rw [← Multiset.cons_add]
    exact found.add left

theorem emits {f : String}
    (bodies : ∀ b, p.body? f = some b → ∃ d, q.body? f = some d ∧ R b d)
    (emits : p.Emits f actions) : q.Emits f actions := by
  obtain ⟨b, state, body, run⟩ := emits
  obtain ⟨d, twin, related⟩ := bodies b body
  have start : Multiset.Rel R {b} {d} := .cons related .zero
  obtain ⟨state', answered, -⟩ := Run.answered answers.step start run
  exact ⟨d, state', twin, answered⟩

end Program.Answers

/-! Undefined calls. -/

/-- All that the statement can do is to give way to the next one. -/
def Statement.Inert (p : Program) (s : Statement) : Prop :=
  ∀ actions front started,
    s.Step p actions front started ↔ actions = [] ∧ front = [] ∧ started = []

/-- A thread, and what it is without undefined calls. -/
inductive Trims (p : Program) : Block → Block → Prop where
  | done : Trims p [] []
  | pass {s : Statement} {b d : Block} : s.Inert p → Trims p b d → Trims p (s :: b) d
  | wait {b d : Block} : Trims p b d → Trims p b (.tau :: d)
  | act (a : Action) {b d : Block} : Trims p b d → Trims p (.act a :: b) (.act a :: d)
  | invoke (m : Transfer) (f : String) (xs : List Parameter) {b d : Block} :
      Trims p b d → Trims p (.invoke m f xs :: b) (.invoke m f xs :: d)
  | branch (c : Option String) {t t' e e' b d : Block} : Trims p t t' → Trims p e e' →
      Trims p b d → Trims p (.branch c t e :: b) (.branch c t' e' :: d)
  | collapsed (c : Option String) {t e b d : Block} : Trims p t Block.idle →
      Trims p e Block.idle → Trims p b d → Trims p (.branch c t e :: b) (.tau :: d)
  | select {cs : List Block} {b d : Block} : (∀ c ∈ cs, Trims p c (Block.prune p.contains c)) →
      Trims p b d → Trims p (.select cs :: b) (.select (cs.map (Block.prune p.contains)) :: d)

variable {p q : Program} {b d : Block} {f : String} {actions : List Action}

theorem Statement.inert_tau : Statement.Inert p .tau := by
  intro actions front started
  constructor
  · intro step
    cases step
    exact ⟨rfl, rfl, rfl⟩
  · rintro ⟨rfl, rfl, rfl⟩
    exact .tau

theorem Statement.inert_invoke (undefined : p.body? f = none) (m : Transfer)
    (xs : List Parameter) : Statement.Inert p (.invoke m f xs) := by
  intro actions front started
  constructor
  · intro step
    cases step with
    | call => exact ⟨rfl, by rw [undefined, Option.getD_none], rfl⟩
    | spawn => exact ⟨rfl, rfl, by rw [undefined, Option.toList_none]⟩
  · rintro ⟨rfl, rfl, rfl⟩
    cases m with
    | call =>
      have step := Statement.Step.call (p := p) f xs
      rwa [undefined] at step
    | spawn =>
      have step := Statement.Step.spawn (p := p) f xs
      rwa [undefined] at step

theorem Program.contains_eq_isSome_body? (p : Program) (f : String) :
    p.contains f = (p.body? f).isSome := by
  rw [body?, Option.isSome_map, function?, List.isSome_find?, contains]

theorem Program.body?_dropUndefined (p : Program) (f : String) :
    p.dropUndefined.body? f = (p.body? f).map (Block.prune p.contains) := by
  rw [body?, body?, function?, dropUndefined, List.find?_map, Option.map_map, Option.map_map]
  rfl

namespace Trims

theorem append {b' d' : Block} (first : Trims p b d) (later : Trims p b' d') :
    Trims p (b ++ b') (d ++ d') := by
  induction first with
  | done => exact later
  | pass inert _ ih => exact .pass inert ih
  | wait _ ih => exact .wait ih
  | act a _ ih => exact .act a ih
  | invoke m f xs _ ih => exact .invoke m f xs ih
  | branch c ht he _ _ _ ih => exact .branch c ht he ih
  | collapsed c ht he _ _ _ ih => exact .collapsed c ht he ih
  | select cases _ _ ih => exact .select cases ih

theorem relation :
    PruneRelation p.contains (fun _ f => p.contains f = false) (Trims p) where
  done := .done
  wait := .wait
  tau rest := .pass Statement.inert_tau (.wait rest)
  act := .act
  keep m f xs _ _ _ := .invoke m f xs
  lose {m f} xs _ _ lost := by
    have undefined : p.body? f = none := by
      rwa [p.contains_eq_isSome_body?, Option.isSome_eq_false_iff, Option.isNone_iff_eq_none] at lost
    exact .pass (Statement.inert_invoke undefined m xs)
  branch := .branch
  collapsed := .collapsed
  select := .select

theorem prune (b : Block) : Trims p b (Block.prune p.contains b) := relation.prune_all b

theorem called (f : String) :
    Trims p ((p.body? f).getD []) ((p.dropUndefined.body? f).getD []) := by
  rw [p.body?_dropUndefined]
  cases p.body? f with
  | none => exact .done
  | some b => exact prune b

theorem spawned (f : String) :
    Multiset.Rel (Trims p) ↑(p.body? f).toList ↑(p.dropUndefined.body? f).toList := by
  rw [p.body?_dropUndefined]
  cases p.body? f with
  | none => exact .zero
  | some b => exact .cons (prune b) .zero

/-- Where nothing but inactions is left of a block, its thread can get past it. -/
theorem run_idle (trims : Trims p b d) (idle : ∀ u ∈ d, u = .tau) (later : Block) :
    p.Run {b ++ later} [] {later} := by
  induction trims generalizing later with
  | done => exact .refl _
  | @pass s b d inert _ ih =>
    have step : p.Step {s :: (b ++ later)} [] {b ++ later} :=
      .alone ((inert [] [] []).mpr ⟨rfl, rfl, rfl⟩) (b ++ later)
    exact .next step (ih idle later)
  | wait _ ih => exact ih (fun u member => idle u (List.mem_cons_of_mem _ member)) later
  | act a => exact absurd (idle _ List.mem_cons_self) nofun
  | invoke m f xs => exact absurd (idle _ List.mem_cons_self) nofun
  | branch c => exact absurd (idle _ List.mem_cons_self) nofun
  | @collapsed c t e b d _ _ _ thenBody _ ih =>
    have step : p.Step {.branch c t e :: (b ++ later)} [] {t ++ (b ++ later)} :=
      .alone (.thenBranch c t e) (b ++ later)
    have rest := ih (fun u member => idle u (List.mem_cons_of_mem _ member)) later
    exact .next step ((thenBody (fun _ => List.mem_singleton.mp) (b ++ later)).trans rest)
  | select cases => exact absurd (idle _ List.mem_cons_self) nofun

/-- The pruned thread stays where it is while undefined calls go by, and drops the inactions that
were put in place of them. -/
theorem answers : p.Answers p.dropUndefined (Trims p) := by
  intro u rest d actions front started trims step
  generalize whole : u :: rest = thread at trims
  induction trims with
  | done => contradiction
  | @pass s b d inert behind _ =>
    cases whole
    obtain ⟨rfl, rfl, rfl⟩ := (inert _ _ _).mp step
    exact ⟨{d}, .refl _, .cons behind .zero⟩
  | @wait b d _ ih =>
    obtain ⟨t, run, found⟩ := ih whole
    have waits : p.dropUndefined.Step {.tau :: d} [] {d} := .alone .tau d
    exact ⟨t, .next waits run, found⟩
  | @act a b d behind _ =>
    cases whole
    cases step
    exact ⟨_, .single (.alone (.act a) d), .cons behind .zero⟩
  | @invoke m f xs b d behind _ =>
    cases whole
    cases step with
    | call => exact ⟨_, .single (.alone (.call f xs) d), .cons ((called f).append behind) .zero⟩
    | spawn => exact ⟨_, .single (.alone (.spawn f xs) d), .cons behind (spawned f)⟩
  | @branch c t t' e e' b d ht he behind _ _ _ =>
    cases whole
    cases step with
    | thenBranch =>
      exact ⟨_, .single (.alone (.thenBranch c t' e') d), .cons (ht.append behind) .zero⟩
    | elseBranch =>
      exact ⟨_, .single (.alone (.elseBranch c t' e') d), .cons (he.append behind) .zero⟩
  | @collapsed c t e b d ht he behind _ _ _ =>
    cases whole
    -- the inaction that is left of the conditional is what is left of either branch
    cases step with
    | thenBranch => exact ⟨_, .refl _, .cons (ht.append behind) .zero⟩
    | elseBranch => exact ⟨_, .refl _, .cons (he.append behind) .zero⟩
  | @select cs b d each behind _ _ =>
    cases whole
    cases step with
    | case member =>
      exact ⟨_, .single (.alone (.case (List.mem_map_of_mem member)) d),
        .cons ((each front member).append behind) .zero⟩

/-- The thread itself first gets past the undefined calls, and past a conditional of which only an
inaction is left. -/
theorem answers_back : p.dropUndefined.Answers p fun d b => Trims p b d := by
  intro u rest b actions front started trims step
  generalize whole : u :: rest = thread at trims
  induction trims with
  | done => contradiction
  | @pass s b d inert _ ih =>
    obtain ⟨t, run, found⟩ := ih whole
    have passes : p.Step {s :: b} [] {b} := .alone ((inert [] [] []).mpr ⟨rfl, rfl, rfl⟩) b
    exact ⟨t, .next passes run, found⟩
  | @wait b d behind _ =>
    cases whole
    cases step
    exact ⟨{b}, .refl _, .cons behind .zero⟩
  | @act a b d behind _ =>
    cases whole
    cases step
    exact ⟨_, .single (.alone (.act a) b), .cons behind .zero⟩
  | @invoke m f xs b d behind _ =>
    cases whole
    cases step with
    | call => exact ⟨_, .single (.alone (.call f xs) b), .cons ((called f).append behind) .zero⟩
    | spawn =>
      exact ⟨_, .single (.alone (.spawn f xs) b), .cons behind (Multiset.rel_flip.mpr (spawned f))⟩
  | @branch c t t' e e' b d ht he behind _ _ _ =>
    cases whole
    cases step with
    | thenBranch =>
      exact ⟨_, .single (.alone (.thenBranch c t e) b), .cons (ht.append behind) .zero⟩
    | elseBranch =>
      exact ⟨_, .single (.alone (.elseBranch c t e) b), .cons (he.append behind) .zero⟩
  | @collapsed c t e b d ht _ behind _ _ _ =>
    cases whole
    cases step
    have enters : p.Step {.branch c t e :: b} [] {t ++ b} := .alone (.thenBranch c t e) b
    have leaves := ht.run_idle (fun _ => List.mem_singleton.mp) b
    exact ⟨{b}, .next enters leaves, .cons behind .zero⟩
  | @select cs b d each behind _ _ =>
    cases whole
    cases step with
    | case member =>
      obtain ⟨c, inside, rfl⟩ := List.mem_map.mp member
      exact ⟨_, .single (.alone (.case inside) b),
        .cons ((each c inside).append behind) .zero⟩

end Trims

theorem Program.emits_dropUndefined_iff :
    p.dropUndefined.Emits f actions ↔ p.Emits f actions := by
  have body := p.body?_dropUndefined f
  constructor
  · refine Trims.answers_back.emits fun d left => ?_
    rw [body, Option.map_eq_some_iff] at left
    obtain ⟨b, here, rfl⟩ := left
    exact ⟨b, here, .prune b⟩
  · refine Trims.answers.emits fun b here => ⟨_, ?_, .prune b⟩
    rw [body, here, Option.map_some]

/-! Uncalled functions. -/

/-- The functions of a part have the same bodies in both programs, and name only functions of that
part. -/
structure Agrees (p q : Program) (part : String → Prop) : Prop where
  same : ∀ f, part f → q.body? f = p.body? f
  closed : ∀ f b, part f → p.body? f = some b → ∀ g ∈ Block.targets b, part g

/-- Two equal threads that stay within a part. -/
def Confined (part : String → Prop) (b d : Block) : Prop :=
  b = d ∧ ∀ f ∈ Block.targets b, part f

namespace Agrees

variable {part : String → Prop}

theorem symm (agrees : Agrees p q part) : Agrees q p part := by
  refine ⟨fun f inside => (agrees.same f inside).symm, fun f b inside body => ?_⟩
  rw [agrees.same f inside] at body
  exact agrees.closed f b inside body

/-- A step within the part is a step of both programs, and what it runs or starts stays there. -/
theorem step (agrees : Agrees p q part) {u : Statement} {front : Block} {started : List Block}
    (inside : ∀ f ∈ u.targets, part f) (step : u.Step p actions front started) :
    u.Step q actions front started ∧
      ∀ b ∈ front :: started, ∀ f ∈ Block.targets b, part f := by
  cases step with
  | tau => exact ⟨.tau, by simp [Block.targets]⟩
  | act a => exact ⟨.act a, by simp [Block.targets]⟩
  | call f xs =>
    have here := inside f (List.mem_singleton_self f)
    refine ⟨agrees.same f here ▸ .call f xs, ?_⟩
    cases body : p.body? f with
    | none => simp [Block.targets]
    | some b => simpa using agrees.closed f b here body
  | spawn f xs =>
    have here := inside f (List.mem_singleton_self f)
    refine ⟨agrees.same f here ▸ .spawn f xs, ?_⟩
    cases body : p.body? f with
    | none => simp [Block.targets]
    | some b => simpa [Block.targets] using agrees.closed f b here body
  | thenBranch =>
    refine ⟨.thenBranch _ _ _, ?_⟩
    simpa using fun f target => inside f (List.mem_append_left _ target)
  | elseBranch =>
    refine ⟨.elseBranch _ _ _, ?_⟩
    simpa using fun f target => inside f (List.mem_append_right _ target)
  | case member =>
    refine ⟨.case member, ?_⟩
    simpa using fun f target => inside f (Statement.mem_caseTargets.mpr ⟨_, member, target⟩)

theorem answers (agrees : Agrees p q part) : p.Answers q (Confined part) := by
  rintro u rest d actions front started ⟨rfl, inside⟩ step
  rw [Block.targets, List.forall_mem_append] at inside
  obtain ⟨answer, stays⟩ := agrees.step inside.1 step
  obtain ⟨frontStays, startedStay⟩ := List.forall_mem_cons.mp stays
  refine ⟨_, .single (.alone answer rest), Multiset.rel_refl_of_refl_on fun c member => ?_⟩
  refine ⟨rfl, ?_⟩
  rcases Multiset.mem_cons.mp member with rfl | member
  · rw [Block.targets_append, List.forall_mem_append]
    exact ⟨frontStays, inside.2⟩
  · exact startedStay c (Multiset.mem_coe.mp member)

theorem emits (agrees : Agrees p q part) (inside : part f) (emits : p.Emits f actions) :
    q.Emits f actions :=
  agrees.answers.emits (fun b body =>
    ⟨b, (agrees.same f inside).trans body, rfl, agrees.closed f b inside body⟩) emits

theorem emits_iff (agrees : Agrees p q part) (inside : part f) :
    q.Emits f actions ↔ p.Emits f actions :=
  ⟨agrees.symm.emits inside, agrees.emits inside⟩

end Agrees

namespace Program

/-- Nothing is changed about what the entry and the cycles lead to, nor about undefined names. -/
theorem agrees_dropUncalled (distinct : p.names.Nodup) (entry : String) :
    Agrees p (p.dropUncalled entry) fun f => f ∈ p.names → p.Led entry f := by
  have fewer : (p.dropUncalled entry).names.Sublist p.names :=
    (p.sublist_functions_without _).map _
  constructor
  · intro f led
    ext b
    rw [body?_eq_some_iff (distinct.sublist fewer), body?_eq_some_iff distinct]
    refine exists_congr fun h => ?_
    rw [mem_functions_dropUncalled distinct]
    refine and_congr_left fun ⟨named, _⟩ => and_iff_left_of_imp fun member => ?_
    rw [named]
    exact led (mem_names.mpr ⟨h, member, named⟩)
  · intro f b led body g target defined
    obtain ⟨h, member, rfl, rfl⟩ := (body?_eq_some_iff distinct).mp body
    have calls : p.Calls h.name g := ⟨h, member, rfl, target, defined⟩
    exact (led (mem_names.mpr ⟨h, member, rfl⟩)).trans (.single calls)

/-- Without its undefined calls a program shows what it showed, from each of its functions, and so
it does without its uncalled functions, from each function that stays. -/
theorem emits_passes_iff (distinct : p.names.Nodup) :
    (∀ f actions, p.dropUndefined.Emits f actions ↔ p.Emits f actions) ∧
    ∀ entry, ∀ f ∈ (p.dropUncalled entry).names, ∀ actions,
      (p.dropUncalled entry).Emits f actions ↔ p.Emits f actions := by
  refine ⟨fun f actions => emits_dropUndefined_iff, fun entry f stays actions => ?_⟩
  apply (agrees_dropUncalled distinct entry).emits_iff
  exact fun _ => ((mem_names_dropUncalled distinct entry).mp stays).2

/-- Only the last function is called by none, and the first starts with an undefined call. -/
def ferry : Program :=
  ⟨[.ofBody "dock" [] [.branch none [.invoke .call "gone" []] [], .invoke .spawn "bell" []],
    .ofBody "bell" [] [.act (.perform .send "ring")],
    .ofBody "spare" [] [.invoke .call "bell" []]]⟩

theorem emits_passes_iff_ferry : ferry.names.Nodup ∧
    "bell" ∈ (ferry.dropUncalled "dock").names ∧
    (∀ f actions, ferry.dropUndefined.Emits f actions ↔ ferry.Emits f actions) ∧
    ∀ actions, (ferry.dropUncalled "dock").Emits "bell" actions ↔ ferry.Emits "bell" actions := by
  have distinct : ferry.names.Nodup := by decide
  have stays : "bell" ∈ (ferry.dropUncalled "dock").names := by
    rw [mem_names_dropUncalled distinct]
    have called : ferry.Calls "dock" "bell" :=
      ⟨_, List.mem_cons_self, rfl, by decide, by decide⟩
    exact ⟨by decide, .inl (.single called)⟩
  obtain ⟨undefined, uncalled⟩ := emits_passes_iff distinct
  exact ⟨distinct, stays, undefined, uncalled "dock" "bell" stays⟩

end Program
end ProcessCalculus
