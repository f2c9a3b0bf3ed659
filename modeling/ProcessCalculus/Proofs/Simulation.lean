import ProcessCalculus.Proofs.Execution
import ProcessCalculus.Proofs.Survivors

/-!
Shrinking loses no visible actions. Every thread of a run is followed by a thread of the shrunk
program with the same survivors to call, and what runs in the middle of removed functions is
followed by nothing, since it never shows anything and starts only threads of the same kind.
-/
namespace ProcessCalculus

/-- A statement of which nothing can be seen, whatever it calls. -/
def Statement.Hushed (p : Program) (s : Statement) : Prop :=
  s.quiet = true ∧ ∀ f ∈ s.targets, ¬ p.Observable f

def Block.Hushed (p : Program) (b : Block) : Prop := ∀ s ∈ b, s.Hushed p

/-- What runs in the shrunk program while a thread of the program itself runs. -/
inductive Follows (p : Program) : Block → Block → Prop where
  | done : Follows p [] []
  | hushed {s : Statement} {b d : Block} : s.Hushed p → Follows p b d → Follows p (s :: b) d
  | wait {b d : Block} : Follows p b d → Follows p b (.tau :: d)
  | act (a : Action) {b d : Block} : Follows p b d → Follows p (.act a :: b) (.act a :: d)
  | invoke (m : Transfer) {f : String} (xs : List Parameter) {b d : Block} : f ∈ p.shrink.names →
      Follows p b d → Follows p (.invoke m f xs :: b) (.invoke m f xs :: d)
  | branch (c : Option String) {t t' e e' b d : Block} : Follows p t t' → Follows p e e' →
      Follows p b d → Follows p (.branch c t e :: b) (.branch c t' e' :: d)
  | collapsed (c : Option String) {t e b d : Block} : Follows p t Block.idle →
      Follows p e Block.idle → Follows p b d → Follows p (.branch c t e :: b) (.tau :: d)
  | select (prune : Block → Block) {cs : List Block} {b d : Block} :
      (∀ c ∈ cs, Follows p c (prune c)) → Follows p b d →
      Follows p (.select cs :: b) (.select (cs.map prune) :: d)

/-- The threads of two states in pairs, beside hushed threads of the first. -/
inductive Matches (p : Program) : Multiset Block → Multiset Block → Prop where
  | nil : Matches p 0 0
  | pair {b d : Block} {s t : Multiset Block} : Follows p b d → Matches p s t →
      Matches p (b ::ₘ s) (d ::ₘ t)
  | stray {b : Block} {s t : Multiset Block} : Block.Hushed p b → Matches p s t →
      Matches p (b ::ₘ s) t

variable {p : Program} {b d : Block} {s t : Multiset Block}

/-! The body of a removed function is hushed, and that of a survivor calls survivors and functions
of which nothing can be seen. -/

theorem Block.Hushed.of_quiet (quiet : Block.quiet b = true)
    (hidden : ∀ f ∈ Block.targets b, ¬ p.Observable f) : Block.Hushed p b := by
  rw [Block.quiet_eq_all, List.all_eq_true] at quiet
  intro s member
  exact ⟨quiet s member, fun f target => hidden f (Block.mem_targets.mpr ⟨s, member, target⟩)⟩

theorem Program.hushed_body (distinct : p.names.Nodup) {f : String} (hidden : ¬ p.Observable f)
    (body : p.body? f = some b) : Block.Hushed p b := by
  obtain ⟨h, member, rfl, rfl⟩ := (body?_eq_some_iff distinct).mp body
  have quiet : Block.quiet h.body = true :=
    (Block.quiet_iff h.body).mpr fun shown => hidden ⟨h, member, .refl, shown⟩
  refine .of_quiet quiet fun g target observable => hidden ?_
  exact observable.of_leads (.single ⟨h, member, rfl, target, observable.defined⟩)

/-- A call that pruning removes is of a function of which nothing can be seen. -/
def Statement.Prunes (p : Program) (s : Statement) : Prop :=
  ∀ f ∈ s.targets, f ∈ p.shrink.names ∨ ¬ p.Observable f

theorem Program.prunes_body (distinct : p.names.Nodup) {f : String} (stays : f ∈ p.shrink.names)
    (body : p.body? f = some b) : ∀ s ∈ b, s.Prunes p := by
  obtain ⟨h, member, rfl, rfl⟩ := (body?_eq_some_iff distinct).mp body
  intro s inside g target
  have inBody : g ∈ Block.targets h.body := Block.mem_targets.mpr ⟨s, inside, target⟩
  by_cases observable : p.Observable g
  · left
    have calls : p.Calls h.name g := ⟨h, member, rfl, inBody, observable.defined⟩
    have survives := ((mem_names_shrink distinct h.name).mp stays).2
    exact (mem_names_shrink distinct g).mpr
      ⟨observable.defined, survives.of_leads (.single calls) observable⟩
  · exact .inr observable

theorem Program.body?_shrink (distinct : p.names.Nodup) {f : String} (stays : f ∈ p.shrink.names)
    (body : p.body? f = some b) :
    p.shrink.body? f = some (Block.prune p.shrink.contains b) := by
  obtain ⟨h, member, rfl, rfl⟩ := (body?_eq_some_iff distinct).mp body
  obtain ⟨g, inside, same⟩ := mem_names.mp stays
  refine (body?_eq_some_iff (nodup_names_shrink distinct)).mpr ⟨g, inside, same, ?_⟩
  rw [functions_shrink distinct] at inside
  obtain ⟨u, before, rfl⟩ := List.mem_map.mp inside
  obtain rfl := eq_of_name distinct (List.mem_filter.mp before).1 member same
  rfl

theorem Program.exists_body (distinct : p.names.Nodup) {f : String} (stays : f ∈ p.shrink.names) :
    ∃ b, p.body? f = some b ∧ p.shrink.body? f = some (Block.prune p.shrink.contains b) := by
  obtain ⟨defined, -⟩ := (mem_names_shrink distinct f).mp stays
  obtain ⟨h, member, same⟩ := mem_names.mp defined
  have body : p.body? f = some h.body := (body?_eq_some_iff distinct).mpr ⟨h, member, same, rfl⟩
  exact ⟨h.body, body, body?_shrink distinct stays body⟩

/-! Pruning a body gives a body that follows it. -/

theorem Follows.append {b' d' : Block} (first : Follows p b d) (later : Follows p b' d') :
    Follows p (b ++ b') (d ++ d') := by
  induction first with
  | done => exact later
  | hushed hush _ ih => exact .hushed hush ih
  | wait _ ih => exact .wait ih
  | act a _ ih => exact .act a ih
  | invoke m xs stays _ ih => exact .invoke m xs stays ih
  | branch c ht he _ _ _ ih => exact .branch c ht he ih
  | collapsed c ht he _ _ _ ih => exact .collapsed c ht he ih
  | select prune cases _ _ ih => exact .select prune cases ih

theorem Follows.hushed_append {b' : Block} (hush : Block.Hushed p b') (later : Follows p b d) :
    Follows p (b' ++ b) d := by
  induction b' with
  | nil => exact later
  | cons s b' ih =>
    obtain ⟨first, rest⟩ := List.forall_mem_cons.mp hush
    exact .hushed first (ih rest)

theorem Follows.relation : PruneRelation p.shrink.contains (fun _ f => ¬ p.Observable f)
    (Follows p) where
  done := .done
  wait := .wait
  tau rest := .hushed ⟨rfl, by simp [Statement.targets]⟩ (.wait rest)
  act := .act
  keep m _ xs _ _ stays := .invoke m xs ((Program.contains_iff _ _).mp stays)
  lose _ _ _ hidden := .hushed ⟨rfl, by simpa [Statement.targets] using hidden⟩
  branch := .branch
  collapsed := .collapsed
  select := .select _

theorem Program.follows_body (distinct : p.names.Nodup) {f : String} (stays : f ∈ p.shrink.names)
    (body : p.body? f = some b) : Follows p b (Block.prune p.shrink.contains b) := by
  apply Follows.relation.prune
  intro s member m g invokes
  rw [contains_iff]
  exact prunes_body distinct stays body s member g invokes.target

/-! Steps and runs. -/

/-- Hushed statements show nothing, and what they run or start is hushed. -/
theorem Statement.Hushed.step (distinct : p.names.Nodup) {u : Statement} (hush : u.Hushed p)
    {actions : List Action} {front : Block} {started : List Block}
    (step : u.Step p actions front started) :
    actions = [] ∧ Block.Hushed p front ∧ ∀ b ∈ started, Block.Hushed p b := by
  obtain ⟨quiet, hidden⟩ := hush
  cases step with
  | tau => exact ⟨rfl, by simp [Block.Hushed], by simp⟩
  | act a => exact Bool.noConfusion quiet
  | call f xs =>
    refine ⟨rfl, ?_, by simp⟩
    cases body : p.body? f with
    | none => simp [Block.Hushed]
    | some b => exact Program.hushed_body distinct (hidden f (by simp [targets])) body
  | spawn f xs =>
    refine ⟨rfl, by simp [Block.Hushed], ?_⟩
    intro b member
    exact Program.hushed_body distinct (hidden f (by simp [targets])) (Option.mem_toList.mp member)
  | thenBranch c t e =>
    rw [Statement.quiet, Bool.and_eq_true] at quiet
    have front := Block.Hushed.of_quiet quiet.1 fun f target =>
      hidden f (List.mem_append_left _ target)
    exact ⟨rfl, front, by simp⟩
  | elseBranch c t e =>
    rw [Statement.quiet, Bool.and_eq_true] at quiet
    have front := Block.Hushed.of_quiet quiet.2 fun f target =>
      hidden f (List.mem_append_right _ target)
    exact ⟨rfl, front, by simp⟩
  | case _ => exact Bool.noConfusion quiet

theorem Matches.strays {started : List Block} (hush : ∀ b ∈ started, Block.Hushed p b)
    (rest : Matches p s t) : Matches p (↑started + s) t := by
  induction started with
  | nil => simpa using rest
  | cons b started ih =>
    rw [← Multiset.cons_coe, Multiset.cons_add]
    obtain ⟨first, others⟩ := List.forall_mem_cons.mp hush
    exact .stray first (ih others)

theorem Matches.add {s' t' : Multiset Block} (first : Matches p s t) (later : Matches p s' t') :
    Matches p (s + s') (t + t') := by
  induction first with
  | nil => simpa using later
  | pair follows _ ih =>
    rw [Multiset.cons_add, Multiset.cons_add]
    exact .pair follows ih
  | stray hush _ ih =>
    rw [Multiset.cons_add]
    exact .stray hush ih

/-- A thread of the first state has a partner or is hushed. -/
theorem Matches.thread (state : Matches p (b ::ₘ s) t) :
    (∃ d t', t = d ::ₘ t' ∧ Follows p b d ∧ Matches p s t') ∨
      Block.Hushed p b ∧ Matches p s t := by
  generalize whole : b ::ₘ s = all at state
  induction state generalizing s with
  | nil => exact absurd whole Multiset.cons_ne_zero
  | @pair c d s' t' follows rest ih =>
    rcases Multiset.cons_eq_cons.mp whole with ⟨rfl, rfl⟩ | ⟨-, common, rfl, rfl⟩
    · exact .inl ⟨d, t', rfl, follows, rest⟩
    · rcases ih rfl with ⟨e, t'', rfl, partner, others⟩ | ⟨hush, others⟩
      · exact .inl ⟨e, d ::ₘ t'', Multiset.cons_swap _ _ _, partner, .pair follows others⟩
      · exact .inr ⟨hush, .pair follows others⟩
  | @stray c s' t' hush rest ih =>
    rcases Multiset.cons_eq_cons.mp whole with ⟨rfl, rfl⟩ | ⟨-, common, rfl, rfl⟩
    · exact .inr ⟨hush, rest⟩
    · rcases ih rfl with ⟨e, t'', rfl, partner, others⟩ | ⟨quiet, others⟩
      · exact .inl ⟨e, t'', rfl, partner, .stray hush others⟩
      · exact .inr ⟨quiet, .stray hush others⟩

/-- A step of a thread that is followed: the follower shows the same, after waiting where pruning
left an inaction, and the threads started are followed or hushed. -/
theorem Follows.step (distinct : p.names.Nodup) {u : Statement} {rest : Block}
    {actions : List Action} {front : Block} {started : List Block}
    (follows : Follows p (u :: rest) d) (step : u.Step p actions front started) :
    ∃ t, p.shrink.Run {d} actions t ∧ Matches p ((front ++ rest) ::ₘ ↑started) t := by
  generalize whole : u :: rest = thread at follows
  induction follows with
  | done => contradiction
  | @hushed s b d hush follows _ =>
    cases whole
    obtain ⟨rfl, quietFront, quietStarted⟩ := hush.step distinct step
    refine ⟨{d}, .refl _, ?_⟩
    have others := Matches.strays quietStarted .nil
    rw [add_zero] at others
    exact .pair (.hushed_append quietFront follows) others
  | @wait b d _ ih =>
    obtain ⟨t, run, found⟩ := ih whole
    have waits : p.shrink.Step {.tau :: d} [] {d} := .thread 0 .tau
    exact ⟨t, .next waits run, found⟩
  | @act a b d follows _ =>
    cases whole
    cases step
    exact ⟨{d}, .single (.thread 0 (.act a)), .pair follows .nil⟩
  | @invoke m f xs b d stays follows _ =>
    cases whole
    obtain ⟨h, body, shrunk⟩ := Program.exists_body distinct stays
    have called := Program.follows_body distinct stays body
    cases step with
    | call =>
      refine ⟨_, .single (.thread 0 (.call f xs)), ?_⟩
      rw [body, shrunk]
      exact .pair (called.append follows) .nil
    | spawn =>
      refine ⟨_, .single (.thread 0 (.spawn f xs)), ?_⟩
      rw [body, shrunk]
      exact .pair follows (.pair called .nil)
  | @branch c t t' e e' b d ht he follows _ _ _ =>
    cases whole
    cases step with
    | thenBranch =>
      exact ⟨_, .single (.thread 0 (.thenBranch c t' e')), .pair (ht.append follows) .nil⟩
    | elseBranch =>
      exact ⟨_, .single (.thread 0 (.elseBranch c t' e')), .pair (he.append follows) .nil⟩
  | @collapsed c t e b d ht he follows _ _ _ =>
    cases whole
    -- the follower stays before its inaction, which is what is left of either branch
    cases step with
    | thenBranch => exact ⟨_, .refl _, .pair (ht.append follows) .nil⟩
    | elseBranch => exact ⟨_, .refl _, .pair (he.append follows) .nil⟩
  | @select prune cs b d each follows _ _ =>
    cases whole
    cases step with
    | case member =>
      have chosen : prune front ∈ cs.map prune := List.mem_map_of_mem member
      exact ⟨_, .single (.thread 0 (.case chosen)), .pair ((each front member).append follows) .nil⟩

theorem Matches.step (distinct : p.names.Nodup) {actions : List Action} {s' : Multiset Block}
    (state : Matches p s t) (step : p.Step s actions s') :
    ∃ t', p.shrink.Run t actions t' ∧ Matches p s' t' := by
  cases step with
  | @thread u _ front rest started others here =>
    rw [← Multiset.cons_add]
    rcases state.thread with ⟨d, t', rfl, follows, beside⟩ | ⟨hush, beside⟩
    · obtain ⟨next, run, found⟩ := follows.step distinct here
      exact ⟨next + t', run.frame t', found.add beside⟩
    · obtain ⟨rfl, quietFront, quietStarted⟩ :=
        (hush u List.mem_cons_self).step distinct here
      have quiet : Block.Hushed p (front ++ rest) := by
        intro v member
        rcases List.mem_append.mp member with inFront | inRest
        · exact quietFront v inFront
        · exact hush v (List.mem_cons_of_mem _ inRest)
      rw [Multiset.cons_add]
      exact ⟨t, .refl t, .stray quiet (.strays quietStarted beside)⟩

namespace Program

/-- Whatever a surviving function can show in some run, it can show after shrinking. -/
theorem emits_shrink (distinct : p.names.Nodup) {f : String} (stays : f ∈ p.shrink.names)
    {actions : List Action} (emits : p.Emits f actions) : p.shrink.Emits f actions := by
  obtain ⟨body, state, defined, run⟩ := emits
  have start : Matches p {body} {Block.prune p.shrink.contains body} :=
    .pair (follows_body distinct stays defined) .nil
  obtain ⟨state', shrunk, -⟩ := Run.answered (fun pairs => pairs.step distinct) start run
  exact ⟨_, state', body?_shrink distinct stays defined, shrunk⟩

/-- The entry of the program below starts a silent loop, which is followed by nothing. -/
def beacon : Program :=
  ⟨[.ofBody entry [] [.invoke .spawn "idle" [], .act (.perform .send "light")],
    .ofBody "idle" [] [.invoke .call "idle" []]]⟩

theorem emits_shrink_beacon : beacon.names.Nodup ∧ entry ∈ beacon.shrink.names ∧
    beacon.Emits entry [.perform .send "light"] ∧
    beacon.shrink.Emits entry [.perform .send "light"] := by
  have distinct : beacon.names.Nodup := by decide
  have stays : entry ∈ beacon.shrink.names := (mem_names_shrink distinct entry).mpr (by
    rw [Survives, if_pos (by decide)]
    exact ⟨by decide, .inl rfl⟩)
  have emits : beacon.Emits entry [.perform .send "light"] := by
    have first : beacon.Step
        {[.invoke .spawn "idle" [], .act (.perform .send "light")]} []
        ([.act (.perform .send "light")] ::ₘ {[.invoke .call "idle" []]}) :=
      .thread 0 (.spawn "idle" [])
    have second : beacon.Step ([.act (.perform .send "light")] ::ₘ {[.invoke .call "idle" []]})
        [.perform .send "light"] ([] ::ₘ {[.invoke .call "idle" []]}) :=
      .thread _ (.act _)
    exact ⟨_, _, rfl, .next first (.single second)⟩
  exact ⟨distinct, stays, emits, emits_shrink distinct stays emits⟩

end Program
end ProcessCalculus
