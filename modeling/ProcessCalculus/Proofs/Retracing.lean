import ProcessCalculus.Proofs.Simulation

/-!
What the shrunk program shows, the program itself shows, provided that no call gets in the way: a
thread of the program gets past a removed call only by running the callee to its end. Where every
such callee can return, each thread of the shrunk program is retraced by a thread of the program,
beside threads that the removed functions start. Where one cannot, shrinking shows what stood behind
a call that never returns.
-/
namespace ProcessCalculus

/-- The statements can all be run by their thread, showing nothing. -/
inductive Block.Returns (p : Program) : Block → Prop where
  | done : Returns p []
  | next {s : Statement} {front rest : Block} {started : List Block} :
      s.Step p [] front started → Returns p (front ++ rest) → Returns p (s :: rest)

/-- Whatever is called by a function that stays and does not stay itself can return. -/
def Program.CalleesReturn (p : Program) : Prop :=
  ∀ h ∈ p.functions, h.name ∈ p.shrink.names → ∀ s ∈ h.body, ∀ f, s.Invokes .call f →
    f ∉ p.shrink.names → ∀ b, p.body? f = some b → Block.Returns p b

/-- What runs in the program itself while a thread of the shrunk program runs. -/
inductive Retraces (p : Program) : Block → Block → Prop where
  | done : Retraces p [] []
  | pass {s : Statement} {b d : Block} : Block.Returns p [s] → Retraces p b d →
      Retraces p (s :: b) d
  | wait {b d : Block} : Retraces p b d → Retraces p b (.tau :: d)
  | act (a : Action) {b d : Block} : Retraces p b d → Retraces p (.act a :: b) (.act a :: d)
  | invoke (m : Transfer) {f : String} (xs : List Parameter) {b d : Block} :
      f ∈ p.shrink.names → Retraces p b d →
      Retraces p (.invoke m f xs :: b) (.invoke m f xs :: d)
  | branch (c : Option String) {t t' e e' b d : Block} : Retraces p t t' → Retraces p e e' →
      Retraces p b d → Retraces p (.branch c t e :: b) (.branch c t' e' :: d)
  | select (prune : Block → Block) {cs : List Block} {b d : Block} :
      (∀ c ∈ cs, Retraces p c (prune c)) → Retraces p b d →
      Retraces p (.select cs :: b) (.select (cs.map prune) :: d)

/-- The threads of the second state are retraced by threads of the first, which may have others. -/
def Retraced (p : Program) (s t : Multiset Block) : Prop :=
  ∃ twins strays, s = twins + strays ∧ Multiset.Rel (Retraces p) twins t

variable {p : Program} {b d : Block} {s t : Multiset Block}

/-! Returning. -/

namespace Block.Returns

theorem append {b' : Block} (first : Returns p b) (later : Returns p b') : Returns p (b ++ b') := by
  induction first with
  | done => exact later
  | next step _ ih =>
    rw [List.append_assoc] at ih
    exact .next step ih

theorem of_step {u : Statement} {front : Block} {started : List Block}
    (step : u.Step p [] front started) (returns : Returns p front) : Returns p [u] :=
  .next step (by rwa [List.append_nil])

/-- What returns gives way to what stands behind it, and leaves threads of its own. -/
theorem run (returns : Returns p b) (later : Block) :
    ∃ strays, p.Run {b ++ later} [] (later ::ₘ strays) := by
  induction returns with
  | done => exact ⟨0, .refl _⟩
  | @next u front rest started step _ ih =>
    obtain ⟨strays, run⟩ := ih
    have beside := run.frame ↑started
    rw [List.append_assoc, Multiset.cons_add, Multiset.singleton_add] at beside
    exact ⟨strays + ↑started, .next (.alone step (rest ++ later)) beside⟩

end Block.Returns

/-- Where nothing but inactions is left of a block, it returns. -/
theorem Retraces.returns (retraces : Retraces p b d) (idle : ∀ u ∈ d, u = .tau) :
    Block.Returns p b := by
  induction retraces with
  | done => exact .done
  | pass first _ ih => exact first.append (ih idle)
  | wait _ ih => exact ih fun u member => idle u (List.mem_cons_of_mem _ member)
  | act a => exact absurd (idle _ List.mem_cons_self) nofun
  | invoke m xs => exact absurd (idle _ List.mem_cons_self) nofun
  | branch c => exact absurd (idle _ List.mem_cons_self) nofun
  | select prune => exact absurd (idle _ List.mem_cons_self) nofun

/-! Pruning leaves a body that is retraced. -/

theorem Retraces.append {b' d' : Block} (first : Retraces p b d) (later : Retraces p b' d') :
    Retraces p (b ++ b') (d ++ d') := by
  induction first with
  | done => exact later
  | pass returns _ ih => exact .pass returns ih
  | wait _ ih => exact .wait ih
  | act a _ ih => exact .act a ih
  | invoke m xs stays _ ih => exact .invoke m xs stays ih
  | branch c ht he _ _ _ ih => exact .branch c ht he ih
  | select prune cases _ _ ih => exact .select prune cases ih

/-- A removed call that lets its thread go on: a spawn does, and so does what can return. -/
def Program.LetsOn (p : Program) (m : Transfer) (f : String) : Prop :=
  m = .call → ∀ b, p.body? f = some b → Block.Returns p b

theorem Program.LetsOn.returns {m : Transfer} {f : String} (lets : p.LetsOn m f)
    (xs : List Parameter) : Block.Returns p [.invoke m f xs] := by
  cases m with
  | call =>
    apply Block.Returns.of_step (.call f xs)
    cases body : p.body? f with
    | none => exact .done
    | some b => exact lets rfl b body
  | spawn => exact .of_step (.spawn f xs) .done

theorem Retraces.relation : PruneRelation p.shrink.contains p.LetsOn (Retraces p) where
  done := .done
  wait := .wait
  tau rest := .pass (.of_step .tau .done) (.wait rest)
  act := .act
  keep m _ xs _ _ stays := .invoke m xs ((Program.contains_iff _ _).mp stays)
  lose xs _ _ lets := .pass (lets.returns xs)
  branch := .branch
  collapsed c _ _ _ _ thenBody _ rest :=
    .pass (.of_step (.thenBranch c _ _) (thenBody.returns fun _ => List.mem_singleton.mp))
      (.wait rest)
  select := .select _

theorem Program.retraces_body (distinct : p.names.Nodup) (callees : p.CalleesReturn) {f : String}
    (stays : f ∈ p.shrink.names) (body : p.body? f = some b) :
    Retraces p b (Block.prune p.shrink.contains b) := by
  obtain ⟨h, member, rfl, rfl⟩ := (body?_eq_some_iff distinct).mp body
  apply Retraces.relation.prune
  intro s inside m g invokes
  rw [contains_iff]
  by_cases left : g ∈ p.shrink.names
  · exact .inl left
  · right
    rintro rfl
    exact callees h member stays s inside g invokes left

/-! Silent functions that are not recursive return. -/

theorem Block.Returns.of_members (members : ∀ u ∈ b, Block.Returns p [u]) : Block.Returns p b := by
  induction b with
  | nil => exact .done
  | cons u b ih =>
    obtain ⟨first, rest⟩ := List.forall_mem_cons.mp members
    exact first.append (ih rest)

theorem Statement.returns (u : Statement) (quiet : u.quiet = true)
    (callees : ∀ f ∈ u.targets, ∀ b, p.body? f = some b → Block.Returns p b) :
    Block.Returns p [u] := by
  induction u using Statement.induct with
  | tau => exact .of_step .tau .done
  | act a => exact Bool.noConfusion quiet
  | invoke m f xs =>
    have lets : p.LetsOn m f := fun _ => callees f (List.mem_singleton_self f)
    exact lets.returns xs
  | branch c t e ht _ =>
    rw [Statement.quiet, Bool.and_eq_true, Block.quiet_eq_all, List.all_eq_true] at quiet
    apply Block.Returns.of_step (.thenBranch c t e)
    apply Block.Returns.of_members
    intro u member
    apply ht u member (quiet.1 u member)
    intro f target
    exact callees f (List.mem_append_left _ (Block.mem_targets.mpr ⟨u, member, target⟩))
  | select cs _ => exact Bool.noConfusion quiet

theorem Block.Returns.of_quiet (quiet : Block.quiet b = true)
    (callees : ∀ f ∈ Block.targets b, ∀ c, p.body? f = some c → Block.Returns p c) :
    Block.Returns p b := by
  rw [Block.quiet_eq_all, List.all_eq_true] at quiet
  apply of_members
  intro u member
  apply u.returns (quiet u member)
  intro f target
  exact callees f (Block.mem_targets.mpr ⟨u, member, target⟩)

namespace Program

theorem acc_callees (distinct : p.names.Nodup) {i : Nat} {f : Function}
    (fi : p.functions[i]? = some f) (acyclic : ∀ g, p.Leads f.name g → ¬ p.OnCycle g) :
    Acc (Function.swap p.PlaceCalls) i := by
  have bounded : ∀ a b, Function.swap p.PlaceCalls a b → a < p.size := by
    intro a b call
    obtain ⟨-, g, ga⟩ := PlaceCalls.functions call
    exact lt_size ga
  rcases acc_or_cycle bounded i with chains | ⟨u, cycle, path⟩
  · exact chains
  · have around := Relation.transGen_swap.mp cycle
    obtain ⟨_, first, -⟩ := Relation.TransGen.head'_iff.mp around
    obtain ⟨⟨g, gu⟩, -⟩ := first.functions
    have leads := (leads_iff distinct fi gu).mp (Relation.reflTransGen_swap.mp path)
    exact absurd ((onCycle_iff distinct gu).mp around) (acyclic g.name leads)

/-- By induction on the chains of callees, which are finite. -/
theorem returns_of_acc (distinct : p.names.Nodup) {i : Nat}
    (chains : Acc (Function.swap p.PlaceCalls) i) {f : Function} (fi : p.functions[i]? = some f)
    (hidden : ¬ p.Observable f.name) : Block.Returns p f.body := by
  induction chains generalizing f with
  | intro i _ ih =>
    have member := List.mem_of_getElem? fi
    have quiet : Block.quiet f.body = true :=
      (Block.quiet_iff _).mpr fun shown => hidden ⟨f, member, .refl, shown⟩
    apply Block.Returns.of_quiet quiet
    intro g target b body
    obtain ⟨h, inside, rfl, rfl⟩ := (body?_eq_some_iff distinct).mp body
    obtain ⟨j, hj⟩ := List.mem_iff_getElem?.mp inside
    have calls : p.Calls f.name h.name :=
      ⟨f, member, rfl, target, mem_names.mpr ⟨h, inside, rfl⟩⟩
    apply ih j ((placeCalls_iff distinct fi hj).mpr calls) hj
    exact fun observable => hidden (observable.of_leads (.single calls))

/-- Removed callees return where only observable functions are recursive. -/
theorem calleesReturn_of_acyclic (distinct : p.names.Nodup)
    (acyclic : ∀ f, p.OnCycle f → p.Observable f) : p.CalleesReturn := by
  intro h member stays s inside f invokes gone b body
  have caller : p.body? h.name = some h.body :=
    (body?_eq_some_iff distinct).mpr ⟨h, member, rfl, rfl⟩
  have hidden : ¬ p.Observable f :=
    (prunes_body distinct stays caller s inside f invokes.target).resolve_left gone
  obtain ⟨g, defined, rfl, rfl⟩ := (body?_eq_some_iff distinct).mp body
  obtain ⟨i, gi⟩ := List.mem_iff_getElem?.mp defined
  refine returns_of_acc distinct (acc_callees distinct gi ?_) gi hidden
  intro u leads cycle
  exact hidden ((acyclic u cycle).of_leads leads)

end Program

/-! Steps and runs. -/

theorem Retraced.twins (pairs : Multiset.Rel (Retraces p) s t) : Retraced p s t :=
  ⟨s, 0, (add_zero s).symm, pairs⟩

theorem Retraced.stray (retraced : Retraced p s t) (others : Multiset Block) :
    Retraced p (s + others) t := by
  obtain ⟨twins, strays, rfl, pairs⟩ := retraced
  exact ⟨twins, strays + others, add_assoc twins strays others, pairs⟩

theorem Retraced.add {s' t' : Multiset Block} (first : Retraced p s t)
    (later : Retraced p s' t') : Retraced p (s + s') (t + t') := by
  obtain ⟨twins, strays, rfl, pairs⟩ := first
  obtain ⟨twins', strays', rfl, pairs'⟩ := later
  exact ⟨twins + twins', strays + strays', add_add_add_comm .., pairs.add pairs'⟩

/-- The thread gets past what was removed before it does the same. -/
theorem Retraces.step (distinct : p.names.Nodup) (callees : p.CalleesReturn) {u : Statement}
    {rest : Block} {actions : List Action} {front : Block} {started : List Block}
    (retraces : Retraces p b (u :: rest)) (step : u.Step p.shrink actions front started) :
    ∃ s, p.Run {b} actions s ∧ Retraced p s ((front ++ rest) ::ₘ ↑started) := by
  generalize whole : u :: rest = thread at retraces
  induction retraces with
  | done => contradiction
  | @pass v b d returns _ ih =>
    -- what was removed runs to its end first, and the threads it starts are strays from then on
    obtain ⟨s, run, retraced⟩ := ih whole
    obtain ⟨strays, past⟩ := returns.run b
    have beside := run.frame strays
    rw [Multiset.singleton_add] at beside
    exact ⟨s + strays, past.trans beside, retraced.stray strays⟩
  | @wait b d behind _ =>
    cases whole
    cases step
    exact ⟨{b}, .refl _, .twins (.cons behind .zero)⟩
  | @act a b d behind _ =>
    cases whole
    cases step
    exact ⟨_, .single (.alone (.act a) b), .twins (.cons behind .zero)⟩
  | @invoke m f xs b d stays behind _ =>
    cases whole
    obtain ⟨c, body, shrunk⟩ := Program.exists_body distinct stays
    have called := Program.retraces_body distinct callees stays body
    cases step with
    | call =>
      refine ⟨_, .single (.alone (.call f xs) b), ?_⟩
      rw [body, shrunk]
      exact .twins (.cons (called.append behind) .zero)
    | spawn =>
      refine ⟨_, .single (.alone (.spawn f xs) b), ?_⟩
      rw [body, shrunk]
      exact .twins (.cons behind (.cons called .zero))
  | @branch c t t' e e' b d ht he behind _ _ _ =>
    cases whole
    cases step with
    | thenBranch =>
      exact ⟨_, .single (.alone (.thenBranch c t e) b), .twins (.cons (ht.append behind) .zero)⟩
    | elseBranch =>
      exact ⟨_, .single (.alone (.elseBranch c t e) b), .twins (.cons (he.append behind) .zero)⟩
  | @select prune cs b d each behind _ _ =>
    cases whole
    cases step with
    | case member =>
      obtain ⟨c, inside, rfl⟩ := List.mem_map.mp member
      exact ⟨_, .single (.alone (.case inside) b),
        .twins (.cons ((each c inside).append behind) .zero)⟩

theorem Retraced.step (distinct : p.names.Nodup) (callees : p.CalleesReturn)
    {actions : List Action} {t' : Multiset Block} (retraced : Retraced p s t)
    (step : p.shrink.Step t actions t') : ∃ s', p.Run s actions s' ∧ Retraced p s' t' := by
  cases step with
  | @thread u _ front rest started others here =>
    obtain ⟨twins, strays, rfl, pairs⟩ := retraced
    obtain ⟨b, beside, retraces, left, rfl⟩ := Multiset.rel_cons_right.mp pairs
    obtain ⟨next, run, found⟩ := retraces.step distinct callees here
    have framed := run.frame (beside + strays)
    rw [Multiset.singleton_add, ← Multiset.cons_add] at framed
    refine ⟨_, framed, ?_⟩
    rw [← Multiset.cons_add]
    exact found.add ((Retraced.twins left).stray strays)

namespace Program

/-- Whatever a surviving function can show after shrinking, it can show in some run before, where
every removed callee can return. -/
theorem emits_of_shrink (distinct : p.names.Nodup) (callees : p.CalleesReturn) {f : String}
    (stays : f ∈ p.shrink.names) {actions : List Action} (emits : p.shrink.Emits f actions) :
    p.Emits f actions := by
  obtain ⟨c, state, left, run⟩ := emits
  obtain ⟨b, body, shrunk⟩ := exists_body distinct stays
  obtain rfl := Option.some.inj (left.symm.trans shrunk)
  have start : Retraced p {b} {Block.prune p.shrink.contains b} :=
    .twins (.cons (retraces_body distinct callees stays body) .zero)
  obtain ⟨state', before, -⟩ :=
    Run.answered (fun retraced => Retraced.step distinct callees retraced) start run
  exact ⟨b, state', body, before⟩

/-- The entry calls a function before it sends. -/
def waiting (body : Block) : Program :=
  ⟨[.ofBody entry [] [.invoke .call "wait" [], .act (.perform .send "x")],
    .ofBody "wait" [] body]⟩

theorem nodup_names_waiting (body : Block) : (waiting body).names.Nodup := by
  change [entry, "wait"].Nodup
  decide

theorem not_observable_waiting {body : Block} (quiet : Block.quiet body = true)
    (targets : ∀ g ∈ Block.targets body, g = "wait") : ¬ (waiting body).Observable "wait" := by
  apply not_observable_of_closed (· = "wait")
  · intro h member named
    rcases List.mem_cons.mp member with rfl | member
    · exact absurd named (by decide)
    · obtain rfl := List.mem_singleton.mp member
      exact ⟨quiet, targets⟩
  · rfl

/-- Shrinking takes the call away and leaves the sending, where the function is silent. -/
theorem emits_shrink_waiting (body : Block) (quiet : Block.quiet body = true)
    (targets : ∀ g ∈ Block.targets body, g = "wait") :
    entry ∈ (waiting body).shrink.names ∧
      (waiting body).shrink.Emits entry [.perform .send "x"] := by
  have distinct := nodup_names_waiting body
  have defined : entry ∈ (waiting body).names := List.mem_cons_self
  have stays : entry ∈ (waiting body).shrink.names :=
    (mem_names_shrink distinct entry).mpr ⟨defined, (survives_iff defined).mpr (.inl rfl)⟩
  have gone : ¬ (waiting body).shrink.contains "wait" = true := by
    rw [contains_iff, mem_names_shrink distinct, survives_iff defined]
    rintro ⟨-, same | ⟨observable, -⟩⟩
    · exact absurd same (by decide)
    · exact not_observable_waiting quiet targets observable
  have pruned : Block.prune (waiting body).shrink.contains
      [.invoke .call "wait" [], .act (.perform .send "x")] = [.act (.perform .send "x")] := by
    simp [Block.prune, Block.pruneEach, Statement.prune, Block.orIdle, gone]
  obtain ⟨b, found, left⟩ := exists_body distinct stays
  cases found
  exact ⟨stays, _, _, left.trans (congrArg some pruned), .single (.alone (.act _) [])⟩

/-- The entry waits for a function that calls itself any number of times. -/
def patient : Program := waiting [.branch none [.invoke .call "wait" []] [.tau]]

theorem calleesReturn_patient : patient.CalleesReturn := by
  have callees : ∀ h ∈ patient.functions, ∀ f ∈ Block.targets h.body, f = "wait" := by decide
  intro h member _ s inside f invokes _ b body
  obtain rfl := callees h member f (Block.mem_targets.mpr ⟨s, inside, invokes.target⟩)
  cases body
  exact .of_step (.elseBranch _ _ _) (.of_step .tau .done)

theorem emits_of_shrink_patient : patient.names.Nodup ∧ patient.CalleesReturn ∧
    entry ∈ patient.shrink.names ∧ patient.shrink.Emits entry [.perform .send "x"] ∧
    patient.Emits entry [.perform .send "x"] := by
  have distinct : patient.names.Nodup := nodup_names_waiting _
  obtain ⟨stays, emits⟩ :=
    emits_shrink_waiting [.branch none [.invoke .call "wait" []] [.tau]] rfl (by decide)
  exact ⟨distinct, calleesReturn_patient, stays, emits,
    emits_of_shrink distinct calleesReturn_patient stays emits⟩

/-- The entry waits for a function that does nothing but call itself. -/
def stalled : Program := waiting [.invoke .call "wait" []]

/-- The thread of the entry makes the same call again and again. -/
theorem step_stalled {actions : List Action} {t : Multiset Block}
    (step : stalled.Step {[.invoke .call "wait" [], .act (.perform .send "x")]} actions t) :
    actions = [] ∧ t = {[.invoke .call "wait" [], .act (.perform .send "x")]} := by
  obtain ⟨u, front, rest, started, same, here, rfl⟩ := step.of_alone
  cases same
  cases here
  exact ⟨rfl, rfl⟩

theorem run_stalled {actions : List Action} {s t : Multiset Block}
    (start : s = {[.invoke .call "wait" [], .act (.perform .send "x")]})
    (run : stalled.Run s actions t) : actions = [] := by
  induction run with
  | refl => rfl
  | next step _ ih =>
    subst start
    obtain ⟨rfl, rfl⟩ := step_stalled step
    exact ih rfl

/-- Shrinking shows what stood behind a call that never returns. -/
theorem not_emits_stalled : stalled.names.Nodup ∧ entry ∈ stalled.shrink.names ∧
    stalled.shrink.Emits entry [.perform .send "x"] ∧
    ¬ stalled.Emits entry [.perform .send "x"] := by
  obtain ⟨stays, emits⟩ := emits_shrink_waiting [.invoke .call "wait" []] rfl (by decide)
  refine ⟨nodup_names_waiting _, stays, emits, ?_⟩
  rintro ⟨body, state, found, run⟩
  cases found
  exact absurd (run_stalled rfl run) nofun

end Program
end ProcessCalculus
