import ProcessCalculus.Proofs.Acceptance

/-!
What the machine has read is always the beginning of a derivation. Each part of a state is related
to the tokens that led to it, with trees for all that is complete; a token more keeps the relation,
and a state where a program may end has the tree of the whole program.
-/
namespace ProcessCalculus.Grammar

inductive NameList.Reads : NameList → List Token → Prop where
  | opening : Reads .opening []
  | first : Reads .first [.mark .opening]
  | afterName (xs : NameTree) : Reads (.afterName xs.names.reverse) (.mark .opening :: xs.tokens)
  | afterComma (xs : NameTree) :
      Reads (.afterComma xs.names.reverse) (.mark .opening :: xs.tokens ++ [.mark .comma])

inductive Clause.Reads : Clause → List Token → Prop where
  | target {o : Operation} : o.kind = [] → Reads (.target o) [.keyword o.word]
  | channelName : Reads .channelName [.keyword .bind]
  | channelEquals (x : String) : Reads (.channelEquals x) [.keyword .bind, .identifier x]
  | channelKeyword (x : String) :
      Reads (.channelKeyword x) [.keyword .bind, .identifier x, .mark .equals]
  | channelLabel (x : String) :
      Reads (.channelLabel x) [.keyword .bind, .identifier x, .mark .equals, .keyword .newChannel]
  | channelComma (x label : String) : Reads (.channelComma x label)
      [.keyword .bind, .identifier x, .mark .equals, .keyword .newChannel, .identifier label]
  | channelCapacity (x label : String) : Reads (.channelCapacity x label)
      [.keyword .bind, .identifier x, .mark .equals, .keyword .newChannel, .identifier label,
        .mark .comma]
  | callee (m : Transfer) : Reads (.callee m) [.keyword m.word]
  | arguments (m : Transfer) (f : String) {list : NameList} {ts : List Token} : list.Reads ts →
      Reads (.arguments m f list) (.keyword m.word :: .identifier f :: ts)
  | lockName : Reads .lockName [.keyword .newLock]
  | lockKind (x : String) : Reads (.lockKind x) [.keyword .newLock, .identifier x]
  | complete (s : StatementTree) : Reads (.complete s.statement) s.tokens

/-- Some definitions, the last one first, and their tokens. -/
inductive ReadsDefinitions : List Definition → List Token → Prop where
  | none : ReadsDefinitions [] []
  | some (p : ProgramTree) : ReadsDefinitions p.definitions.reverse p.tokens

/-- Some statements, the last one first, and their tokens. -/
inductive ReadsStatements : List Statement → List Token → Prop where
  | none : ReadsStatements [] []
  | some (b : BlockTree) : ReadsStatements b.block.reverse b.tokens

/-- What surrounds a block, and the tokens up to the start of the block. -/
inductive Context.Reads : Context → List Token → Prop where
  | body {before : List Definition} {ts : List Token} (f : String) (xs : ParameterTree) :
      ReadsDefinitions before ts → Reads (.body before f xs.names)
        (ts ++ .keyword .define :: .identifier f :: xs.tokens ++ [.mark .colon])
  | thenBranch {outer : Context} {before : List Statement} {ts us : List Token} :
      Reads outer ts → ReadsStatements before us →
      Reads (.thenBranch outer before) (ts ++ us ++ [.keyword .cond])
  | elseBranch {outer : Context} {before : List Statement} {ts us : List Token} (t : BlockTree) :
      Reads outer ts → ReadsStatements before us → Reads (.elseBranch outer before t.block)
        (ts ++ us ++ .keyword .cond :: t.tokens ++ [.keyword .otherwise])
  | case {outer : Context} {before : List Statement} {ts us : List Token} (cs : CaseTree) :
      Reads outer ts → ReadsStatements before us → Reads (.case outer before cs.blocks.reverse)
        (ts ++ us ++ .keyword .select :: cs.tokens ++ [.keyword .case])

inductive State.Reads : State → List Token → Prop where
  | start : Reads .start []
  | name {before : List Definition} {ts : List Token} : ReadsDefinitions before ts →
      Reads (.name before) (ts ++ [.keyword .define])
  | formals {before : List Definition} {list : NameList} {ts us : List Token} (f : String) :
      ReadsDefinitions before ts → list.Reads us →
      Reads (.formals before f list) (ts ++ .keyword .define :: .identifier f :: us)
  | colon {before : List Definition} {ts : List Token} (f : String) (xs : ParameterTree) :
      ReadsDefinitions before ts →
      Reads (.colon before f xs.names) (ts ++ .keyword .define :: .identifier f :: xs.tokens)
  | block {context : Context} {read : List Statement} {ts us : List Token} :
      context.Reads ts → ReadsStatements read us → Reads (.block context read) (ts ++ us)
  | clause {context : Context} {read : List Statement} {c : Clause} {ts us vs : List Token} :
      context.Reads ts → ReadsStatements read us → c.Reads vs →
      Reads (.clause context read c) (ts ++ us ++ vs)
  | cases {context : Context} {read : List Statement} {ts us : List Token} :
      context.Reads ts → ReadsStatements read us →
      Reads (.cases context read) (ts ++ us ++ [.keyword .select])

variable {ts us vs : List Token} {k : Token}

theorem ReadsDefinitions.more {before : List Definition} (reads : ReadsDefinitions before ts)
    (d : DefinitionTree) : ReadsDefinitions (d.definition :: before) (ts ++ d.tokens) := by
  cases reads with
  | none => exact .some (.one d)
  | some p =>
    have more := ReadsDefinitions.some (p.more d)
    simpa [ProgramTree.definitions, ProgramTree.tokens] using more

theorem ReadsDefinitions.tree {before : List Definition} (reads : ReadsDefinitions before ts)
    (nonempty : before ≠ []) :
    ∃ p : ProgramTree, p.definitions = before.reverse ∧ p.tokens = ts := by
  cases reads with
  | none => contradiction
  | some p => exact ⟨p, (List.reverse_reverse _).symm, rfl⟩

theorem ReadsStatements.more {read : List Statement} (reads : ReadsStatements read us)
    (s : StatementTree) :
    ReadsStatements (s.statement :: read) (us ++ (s.tokens ++ [.mark .semicolon])) := by
  cases reads with
  | none => exact .some (.one s)
  | some b =>
    have more := ReadsStatements.some (b.more s)
    simpa [BlockTree.block, BlockTree.tokens] using more

theorem NameList.Reads.step {list : NameList} (reads : list.Reads us) :
    (∀ next, list.step k = some (.inl next) → next.Reads (us ++ [k])) ∧
    ∀ names, list.step k = some (.inr names) →
      ∃ xs : ParameterTree, xs.names = names ∧ xs.tokens = us ++ [k] := by
  unfold NameList.step
  split
  · cases reads
    refine ⟨fun next same => ?_, by simp⟩
    cases same
    exact .first
  · next name =>
    cases reads
    refine ⟨fun next same => ?_, by simp⟩
    cases same
    exact .afterName (.one name)
  · cases reads
    refine ⟨by simp, fun names same => ?_⟩
    cases same
    exact ⟨.none, rfl, rfl⟩
  · cases reads with
    | afterName xs =>
      refine ⟨fun next same => ?_, by simp⟩
      cases same
      exact .afterComma xs
  · cases reads with
    | afterName xs =>
      refine ⟨by simp, fun names same => ?_⟩
      cases same
      exact ⟨.some xs, (List.reverse_reverse _).symm, rfl⟩
  · next name =>
    cases reads with
    | afterComma xs =>
      refine ⟨fun next same => ?_, by simp⟩
      cases same
      simpa [NameTree.names, NameTree.tokens] using NameList.Reads.afterName (xs.more name)
  · simp

theorem Clause.start_reads {word : Keyword} {c : Clause} (start : Clause.start? word = some c) :
    c.Reads [.keyword word] := by
  cases word with
  | close | send | receive | newMemory | read | write | lock | unlock | readLock | readUnlock =>
    cases start
    exact .target rfl
  | tau =>
    cases start
    exact .complete .tau
  | bind =>
    cases start
    exact .channelName
  | call | spawn =>
    cases start
    exact .callee _
  | newLock =>
    cases start
    exact .lockName
  | _ => contradiction

theorem Clause.Reads.step {c d : Clause} (reads : c.Reads vs) (step : c.step k = some d) :
    d.Reads (vs ++ [k]) := by
  unfold Clause.step at step
  split at step
  · next o x =>
    cases step
    cases reads with
    | target plain =>
      have tokens :
          (StatementTree.act (.perform o x)).tokens = [.keyword o.word, .identifier x] := by
        rw [StatementTree.tokens, Action.tokens, plain]
      rw [List.singleton_append, ← tokens]
      exact .complete (.act (.perform o x))
  · next x =>
    cases step
    cases reads
    exact .channelEquals x
  · next x =>
    cases step
    cases reads
    exact .channelKeyword x
  · next x =>
    cases step
    cases reads
    exact .channelLabel x
  · next x label =>
    cases step
    cases reads
    exact .channelComma x label
  · next x label =>
    cases step
    cases reads
    exact .channelCapacity x label
  · next x label n =>
    cases step
    cases reads
    exact .complete (.act (.newChannel x label n))
  · next m f =>
    cases step
    cases reads
    exact .arguments m f .opening
  · next m f list =>
    cases reads with
    | arguments _ _ names =>
      obtain ⟨inside, closes⟩ := names.step (k := k)
      split at step
      · next next here =>
        cases step
        exact .arguments m f (inside next here)
      · next names here =>
        cases step
        obtain ⟨xs, rfl, tokens⟩ := closes names here
        have statement := Clause.Reads.complete (.invoke m f xs)
        rwa [StatementTree.tokens, tokens] at statement
      · contradiction
  · next x =>
    cases step
    cases reads
    exact .lockKind x
  · next x =>
    cases step
    cases reads
    exact .complete (.act (.perform .newMutex x))
  · next x =>
    cases step
    cases reads
    exact .complete (.act (.perform .newRWMutex x))
  · contradiction

theorem Context.Reads.leave {context : Context} (reads : context.Reads ts) (b : BlockTree)
    {word : Keyword} {next : State} (leave : context.leave? b.block word = some next) :
    next.Reads (ts ++ b.tokens ++ [.keyword word]) := by
  unfold Context.leave? at leave
  split at leave
  · next before f xs =>
    cases leave
    cases reads with
    | @body _ ds f xs definitions =>
      have more := State.Reads.name (definitions.more ⟨f, xs, b⟩)
      simpa [DefinitionTree.definition, DefinitionTree.tokens] using more
  · next outer before =>
    cases leave
    cases reads with
    | thenBranch around read =>
      simpa using State.Reads.block (.elseBranch b around read) .none
  · next outer before thenBody =>
    cases leave
    cases reads with
    | elseBranch t around read =>
      have statement := State.Reads.clause around read (.complete (.branch t b))
      simpa [StatementTree.statement, StatementTree.tokens] using statement
  · next outer before cases =>
    cases leave
    cases reads with
    | case cs around read =>
      have block := State.Reads.block (.case (cs.more b) around read) .none
      simpa [CaseTree.blocks, CaseTree.tokens] using block
  · next outer before cases =>
    cases leave
    cases reads with
    | case cs around read =>
      have statement := State.Reads.clause around read (.complete (.select (cs.more b)))
      simpa [StatementTree.tokens, StatementTree.statement, CaseTree.blocks, CaseTree.tokens]
        using statement
  · contradiction

theorem Context.Reads.turn {context : Context} {read : List Statement} (around : context.Reads ts)
    (reads : ReadsStatements read us) {word : Keyword} {next : State}
    (turn : context.turn? read word = some next) :
    next.Reads (ts ++ us ++ [.keyword word]) := by
  unfold Context.turn? at turn
  split at turn
  · cases turn
    simpa using State.Reads.block (.thenBranch around reads) .none
  · cases turn
    exact .cases around reads
  · split at turn
    · next c start =>
      cases turn
      exact .clause around reads (Clause.start_reads start)
    · cases reads with
      | none => contradiction
      | some b =>
        rw [if_neg (by simpa using b.block_ne_nil), List.reverse_reverse] at turn
        exact around.leave b turn

/-- A token more. -/
theorem State.Reads.step {s next : State} (reads : s.Reads ts) (step : s.step k = some next) :
    next.Reads (ts ++ [k]) := by
  unfold State.step at step
  split at step
  · cases step
    cases reads
    exact .name .none
  · next before f =>
    cases step
    cases reads with
    | name definitions => simpa using State.Reads.formals f definitions .opening
  · next before f list =>
    cases reads with
    | formals _ definitions names =>
      obtain ⟨inside, closes⟩ := names.step (k := k)
      split at step
      · next next here =>
        cases step
        simpa using State.Reads.formals f definitions (inside next here)
      · next names here =>
        cases step
        obtain ⟨xs, rfl, tokens⟩ := closes names here
        simpa [tokens] using State.Reads.colon f xs definitions
      · contradiction
  · next before f xs =>
    cases step
    cases reads with
    | colon _ xs definitions => simpa using State.Reads.block (.body f xs definitions) .none
  · next context read word =>
    cases reads with
    | block around reads => exact around.turn reads step
  · next context read s =>
    cases step
    cases reads with
    | clause around reads clause =>
      cases clause with
      | complete s => simpa using State.Reads.block around (reads.more s)
  · next context read c _ =>
    obtain ⟨d, advance, rfl⟩ := Option.map_eq_some_iff.mp step
    cases reads with
    | clause around reads clause =>
      simpa using State.Reads.clause around reads (clause.step advance)
  · next context read =>
    cases step
    cases reads with
    | cases around reads =>
      have block := State.Reads.block (.case .none around reads) .none
      simpa [CaseTree.blocks, CaseTree.tokens] using block
  · next context read =>
    cases step
    cases reads with
    | cases around reads =>
      have statement := State.Reads.clause around reads (.complete (.select .none))
      simpa [StatementTree.statement, StatementTree.tokens, CaseTree.blocks, CaseTree.tokens]
        using statement
  · contradiction

theorem State.Reads.run {s last : State} (reads : s.Reads ts) (run : s.run us = some last) :
    last.Reads (ts ++ us) := by
  induction us generalizing s ts with
  | nil =>
    cases run
    rwa [List.append_nil]
  | cons k us ih =>
    rw [State.run_cons, Option.bind_eq_some_iff] at run
    obtain ⟨next, step, rest⟩ := run
    simpa using ih (reads.step step) rest

/-- Where a program may end, what was read is the tokens of one. -/
theorem State.Reads.finish {s : State} {ds : List Definition} (reads : s.Reads ts)
    (finished : s.finish? = some ds) :
    ∃ p : ProgramTree, p.definitions = ds ∧ p.tokens = ts := by
  unfold State.finish? at finished
  split at finished
  · next before f xs last read =>
    cases finished
    cases reads with
    | block around reads =>
      generalize whole : last :: read = all at reads
      cases reads with
      | none => contradiction
      | some b =>
        cases around with
        | body f xs definitions =>
          obtain ⟨p, same, tokens⟩ := (definitions.more ⟨f, xs, b⟩).tree (List.cons_ne_nil _ _)
          refine ⟨p, ?_, ?_⟩
          · rw [same, List.reverse_reverse]
            rfl
          · simp [tokens, DefinitionTree.tokens]
  · contradiction

end ProcessCalculus.Grammar
