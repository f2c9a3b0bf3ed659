import ProcessCalculus.Proofs.Reading
import ProcessCalculus.Proofs.Rendering

/-!
The tokens with which an accepted text can begin. Every state of the machine can be completed: what
is open is closed from the inside out, after an inaction where a block is still empty. So the
machine goes on exactly as long as some accepted text goes on with the same tokens.
-/
namespace ProcessCalculus

namespace Grammar

open Token (Formed)

/-- Some tokens lead on to where a program may end. -/
def State.Completes (s : State) : Prop :=
  ∃ ts last ds, (∀ t ∈ ts, t.Formed) ∧ s.run ts = some last ∧ last.finish? = some ds

variable {s next : State} {t : Token} {context : Context} {read : List Statement}

theorem State.Completes.of_step (t : Token) (formed : t.Formed) (step : s.step t = some next)
    (completes : next.Completes) : s.Completes := by
  obtain ⟨ts, last, ds, rest, run, finish⟩ := completes
  exact ⟨t :: ts, last, ds, List.forall_mem_cons.mpr ⟨formed, rest⟩, run_step step run, finish⟩

/-- Any name will do where one is missing. -/
theorem formed_name : (Token.identifier "x").Formed := show Token.IsWord "x" by decide

theorem completes_names {inside : NameList → State} {after : List String → State}
    (holds : Holds inside after) (ends : ∀ xs, (after xs).Completes) (list : NameList) :
    (inside list).Completes := by
  have afterName (xs : List String) : (inside (.afterName xs)).Completes :=
    .of_step (.mark .closing) trivial (holds _ _) (ends _)
  have first : (inside .first).Completes :=
    .of_step (.mark .closing) trivial (holds _ _) (ends _)
  cases list with
  | opening => exact .of_step (.mark .opening) trivial (holds _ _) first
  | first => exact first
  | afterName xs => exact afterName xs
  | afterComma xs => exact .of_step (.identifier "x") formed_name (holds _ _) (afterName _)

theorem completes_clause (ends : ∀ s, (State.block context (s :: read)).Completes) (c : Clause) :
    (State.clause context read c).Completes := by
  have complete (s : Statement) : (State.clause context read (.complete s)).Completes :=
    .of_step (.mark .semicolon) trivial rfl (ends s)
  have arguments (m : Transfer) (f : String) (list : NameList) :
      (State.clause context read (.arguments m f list)).Completes :=
    completes_names (holds_arguments context read m f) (fun _ => complete _) list
  have capacity (x label : String) :
      (State.clause context read (.channelCapacity x label)).Completes :=
    .of_step (.number 0) (show 0 ≤ Int64.toInt 0 by decide) rfl (complete _)
  have comma (x label : String) : (State.clause context read (.channelComma x label)).Completes :=
    .of_step (.mark .comma) trivial rfl (capacity x label)
  have label (x : String) : (State.clause context read (.channelLabel x)).Completes :=
    .of_step (.identifier "x") formed_name rfl (comma x "x")
  have keyword (x : String) : (State.clause context read (.channelKeyword x)).Completes :=
    .of_step (.keyword .newChannel) trivial rfl (label x)
  have equals (x : String) : (State.clause context read (.channelEquals x)).Completes :=
    .of_step (.mark .equals) trivial rfl (keyword x)
  have kind (x : String) : (State.clause context read (.lockKind x)).Completes :=
    .of_step (.keyword .mutex) trivial rfl (complete _)
  cases c with
  | target o => exact .of_step (.identifier "x") formed_name rfl (complete _)
  | channelName => exact .of_step (.identifier "x") formed_name rfl (equals "x")
  | channelEquals x => exact equals x
  | channelKeyword x => exact keyword x
  | channelLabel x => exact label x
  | channelComma x l => exact comma x l
  | channelCapacity x l => exact capacity x l
  | callee m => exact .of_step (.identifier "x") formed_name rfl (arguments m "x" .opening)
  | arguments m f list => exact arguments m f list
  | lockName => exact .of_step (.identifier "x") formed_name rfl (kind "x")
  | lockKind x => exact kind x
  | complete s => exact complete s

/-- An empty block completes where it does with a statement read. -/
theorem completes_empty (ends : ∀ s, (State.block context [s]).Completes) :
    (State.block context []).Completes := by
  have tau : (State.block context []).step (.keyword .tau) =
      some (.clause context [] (.complete .tau)) := rfl
  exact .of_step (.keyword .tau) trivial tau (completes_clause ends _)

/-- A block with statements can be left for what surrounds it, and so on to the end. -/
theorem completes_block : ∀ (context : Context) (s : Statement) (read : List Statement),
    (State.block context (s :: read)).Completes
  | .body before f xs, s, read =>
    ⟨[], _, _, by simp, rfl, rfl⟩
  | .elseBranch outer before thenBody, s, read => by
    have leave : (State.block (.elseBranch outer before thenBody) (s :: read)).step
        (.keyword .endIf) =
          some (.clause outer before (.complete (.branch none thenBody (s :: read).reverse))) := rfl
    exact .of_step (.keyword .endIf) trivial leave
      (completes_clause (fun u => completes_block outer u before) _)
  | .thenBranch outer before, s, read => by
    have leave : (State.block (.thenBranch outer before) (s :: read)).step (.keyword .otherwise) =
        some (.block (.elseBranch outer before (s :: read).reverse) []) := rfl
    -- the other branch is still to come, and gets an inaction before the conditional is closed
    refine .of_step (.keyword .otherwise) trivial leave (completes_empty fun u => ?_)
    have close : (State.block (.elseBranch outer before (s :: read).reverse) [u]).step
        (.keyword .endIf) =
          some (.clause outer before (.complete (.branch none (s :: read).reverse [u]))) := rfl
    exact .of_step (.keyword .endIf) trivial close
      (completes_clause (fun u => completes_block outer u before) _)
  | .case outer before cases, s, read => by
    have leave : (State.block (.case outer before cases) (s :: read)).step (.keyword .endSelect) =
        some (.clause outer before
          (.complete (.select ((s :: read).reverse :: cases).reverse))) := rfl
    exact .of_step (.keyword .endSelect) trivial leave
      (completes_clause (fun u => completes_block outer u before) _)

theorem State.completes (s : State) : s.Completes := by
  have block (context : Context) (read : List Statement) :
      (State.block context read).Completes := by
    cases read with
    | nil => exact completes_empty fun s => completes_block context s []
    | cons s read => exact completes_block context s read
  have clause (context : Context) (read : List Statement) (c : Clause) :
      (State.clause context read c).Completes :=
    completes_clause (fun s => completes_block context s read) c
  have colon (before : List Definition) (f : String) (xs : List String) :
      (State.colon before f xs).Completes :=
    .of_step (.mark .colon) trivial rfl (block _ _)
  have formals (before : List Definition) (f : String) (list : NameList) :
      (State.formals before f list).Completes :=
    completes_names (holds_formals before f) (colon before f) list
  have name (before : List Definition) : (State.name before).Completes :=
    .of_step (.identifier "x") formed_name rfl (formals before "x" .opening)
  cases s with
  | start => exact .of_step (.keyword .define) trivial rfl (name [])
  | name before => exact name before
  | formals before f list => exact formals before f list
  | colon before f xs => exact colon before f xs
  | block context read => exact block context read
  | clause context read c => exact clause context read c
  | cases context read => exact .of_step (.keyword .endSelect) trivial rfl (clause _ _ _)

/-- Whatever is read so far, an illegal character cannot come next. -/
theorem State.step_illegal (s : State) (c : Char) : s.step (.illegal c) = none := by
  have names (list : NameList) : list.step (.illegal c) = none := by
    cases list <;> rfl
  cases s with
  | formals before f list => rw [step, names list]
  | clause context read clause =>
    cases clause with
    | arguments m f list =>
      rw [holds_arguments context read m f, names list]
      rfl
    | _ => rfl
  | _ => rfl

end Grammar

/-! Tokens as a text: each by its own text, and a blank behind it. -/

theorem spells_mark (m : Mark) : Spells m.char.toString [.mark m] := by
  cases m <;> exact spells_fixed rfl (by decide +kernel)

theorem spells_token {t : Token} (formed : t.Formed) (legal : ∀ c, t ≠ .illegal c) :
    Spells t.text [t] := by
  cases t with
  | mark m => exact spells_mark m
  | keyword k => exact spells_keyword k
  | identifier x => exact spells_word formed
  | number n => exact spells_number formed
  | illegal c => exact absurd rfl (legal c)

theorem exists_text {ts : List Token} (formed : ∀ t ∈ ts, t.Formed)
    (legal : ∀ t ∈ ts, ∀ c, t ≠ .illegal c) : ∃ text, Spells text ts := by
  induction ts with
  | nil => exact ⟨"", spells_fixed rfl Token.spelled_nil⟩
  | cons t ts ih =>
    obtain ⟨first, restFormed⟩ := List.forall_mem_cons.mp formed
    obtain ⟨firstLegal, restLegal⟩ := List.forall_mem_cons.mp legal
    obtain ⟨text, spells⟩ := ih restFormed restLegal
    exact ⟨_, (spells_token first firstLegal).blank spells⟩

/-! Accepted texts and their beginnings. -/

/-- The tokens of a text that is read as a program. -/
def Accepted (ts : List Token) : Prop :=
  ∃ text p, Program.read text = .ok p ∧ (Token.scanText text).map Located.token = ts

/-- Tokens with which the tokens of an accepted text begin. -/
def Viable (ts : List Token) : Prop := ∃ rest, Accepted (ts ++ rest)

open Grammar

variable {ts : List Token}

theorem Accepted.run (accepted : Accepted ts) :
    ∃ s ds, State.start.run ts = some s ∧ s.finish? = some ds := by
  obtain ⟨text, p, read, rfl⟩ := accepted
  obtain ⟨⟨tree, tokens⟩, -⟩ := Program.read_eq_ok_iff.mp read
  obtain ⟨s, reached, -, finish⟩ := run_program tree
  rw [tokens] at reached
  exact ⟨s, tree.definitions, reached, finish⟩

theorem legal_of_run {s last : State} (run : s.run ts = some last) :
    ∀ t ∈ ts, ∀ c, t ≠ .illegal c := by
  induction ts generalizing s with
  | nil => simp
  | cons t ts ih =>
    rw [State.run_cons, Option.bind_eq_some_iff] at run
    obtain ⟨next, step, rest⟩ := run
    refine List.forall_mem_cons.mpr ⟨?_, ih rest⟩
    rintro c rfl
    rw [State.step_illegal] at step
    contradiction

theorem accepted_iff : Accepted ts ↔ (∀ t ∈ ts, t.Formed) ∧
    ∃ s ds, State.start.run ts = some s ∧ s.finish? = some ds := by
  constructor
  · intro accepted
    refine ⟨?_, accepted.run⟩
    obtain ⟨text, p, -, rfl⟩ := accepted
    exact Token.formed_tokens text
  · rintro ⟨formed, s, ds, run, finish⟩
    obtain ⟨text, spells⟩ := exists_text formed (legal_of_run run)
    obtain ⟨tree, -, tokens⟩ := (State.Reads.start.run run).finish finish
    have scanned : (Token.scanText text).map Located.token = ts := spells.tokens
    exact ⟨text, _, Program.read_eq_ok_iff.mpr ⟨⟨tree, tokens.trans scanned.symm⟩, rfl⟩, scanned⟩

/-- Tokens are viable where the machine reads them all. -/
theorem viable_iff (formed : ∀ t ∈ ts, t.Formed) :
    Viable ts ↔ ∃ s, State.start.run ts = some s := by
  constructor
  · rintro ⟨rest, accepted⟩
    obtain ⟨last, ds, run, -⟩ := accepted.run
    rw [State.run_append, Option.bind_eq_some_iff] at run
    obtain ⟨s, reached, -⟩ := run
    exact ⟨s, reached⟩
  · rintro ⟨s, reached⟩
    obtain ⟨rest, last, ds, later, run, finish⟩ := s.completes
    refine ⟨rest, accepted_iff.mpr ⟨List.forall_mem_append.mpr ⟨formed, later⟩, last, ds, ?_, ?_⟩⟩
    · exact State.run_trans reached run
    · exact finish

theorem Viable.formed (viable : Viable ts) : ∀ t ∈ ts, t.Formed := by
  obtain ⟨rest, accepted⟩ := viable
  exact (List.forall_mem_append.mp (accepted_iff.mp accepted).1).1

/-- One more token is viable where the machine steps on it. -/
theorem viable_snoc_iff {s : State} {t : Token} (formed : ∀ t ∈ ts, t.Formed)
    (run : State.start.run ts = some s) :
    Viable (ts ++ [t]) ↔ t.Formed ∧ (s.step t).isSome = true := by
  have next : State.start.run (ts ++ [t]) = s.step t := by
    rw [State.run_append, run, Option.bind_some, State.run_cons]
    exact Option.bind_fun_some _
  constructor
  · intro viable
    have both := viable.formed
    obtain ⟨u, reached⟩ := (viable_iff both).mp viable
    rw [next] at reached
    exact ⟨both t (List.mem_append_right ts List.mem_cons_self), Option.isSome_of_eq_some reached⟩
  · rintro ⟨last, steps⟩
    have both := List.forall_mem_append.mpr ⟨formed, List.forall_mem_singleton.mpr last⟩
    rw [viable_iff both, next]
    exact Option.isSome_iff_exists.mp steps

end ProcessCalculus
