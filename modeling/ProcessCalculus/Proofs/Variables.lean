import ProcessCalculus.Proofs.Repruning
import ProcessCalculus.Proofs.RoundTrip

/-!
The variables of a function and the names that its text has in their places. Memory cells and locks
are accessed under their written name and declared, passed and received under their own. So the
text names two variables alike where the function does, and only there, as long as no name with a
path is both accessed and named otherwise, or written like another.
-/
namespace ProcessCalculus

open Token (IsWord)

/-! Where the variables of a function stand. -/

/-- A variable in its place, and whether a memory cell or a lock is accessed there. -/
structure Occurrence where
  name : String
  accessed : Bool
deriving DecidableEq

/-- The name that the text has in the place. -/
def Occurrence.shown (v : Occurrence) : String :=
  if v.accessed then Name.written v.name else v.name

/-- Whether an operation uses a memory cell or a lock that is declared elsewhere. -/
def Operation.accesses : Operation → Bool
  | .read | .write | .lock | .unlock | .readLock | .readUnlock => true
  | _ => false

def Action.occurrences : Action → List Occurrence
  | .newChannel name _ _ => [⟨name, false⟩]
  | .perform operation target => [⟨target, operation.accesses⟩]

mutual

def Statement.occurrences : Statement → List Occurrence
  | .tau => []
  | .act a => a.occurrences
  | .invoke _ _ arguments => (Parameter.actuals arguments).map (⟨·, false⟩)
  | .branch _ thenBody elseBody => Block.occurrences thenBody ++ Block.occurrences elseBody
  | .select cases => Statement.caseOccurrences cases

def Block.occurrences : List Statement → List Occurrence
  | [] => []
  | s :: rest => s.occurrences ++ Block.occurrences rest

def Statement.caseOccurrences : List (List Statement) → List Occurrence
  | [] => []
  | body :: rest => Block.occurrences body ++ Statement.caseOccurrences rest

end

/-- The places of a function in the order of its text, the formal parameters first. -/
def Function.occurrences (f : Function) : List Occurrence :=
  (Parameter.formals f.parameters).map (⟨·, false⟩) ++ Block.occurrences f.body

theorem Block.occurrences_eq_flatMap (b : Block) :
    Block.occurrences b = b.flatMap Statement.occurrences := by
  induction b with
  | nil => rfl
  | cons s b ih => rw [occurrences, ih, List.flatMap_cons]

theorem Statement.caseOccurrences_eq_flatMap (cs : List Block) :
    Statement.caseOccurrences cs = cs.flatMap Block.occurrences := by
  induction cs with
  | nil => rfl
  | cons b cs ih => rw [caseOccurrences, ih, List.flatMap_cons]

/-! What the text of a function has in these places. -/

/-- The place in what the text stands for. -/
def Occurrence.canonical (v : Occurrence) : Occurrence := ⟨v.shown, v.accessed⟩

theorem map_canonical_named (xs : List String) :
    (xs.map (Occurrence.mk · false)).map Occurrence.canonical = xs.map (Occurrence.mk · false) := by
  rw [List.map_map]
  rfl

theorem Operation.shown_eq (o : Operation) (x : String) :
    o.shown x = (Occurrence.mk x o.accesses).shown := by
  cases o <;> rfl

theorem Action.occurrences_canonical (a : Action) :
    a.canonical.occurrences = a.occurrences.map Occurrence.canonical := by
  cases a with
  | newChannel name label n => rfl
  | perform o x =>
    rw [canonical, occurrences, Operation.shown_eq]
    rfl

theorem Block.occurrences_canonical_of_members {b : Block}
    (members : ∀ s ∈ b, s.canonical.occurrences = s.occurrences.map Occurrence.canonical) :
    Block.occurrences (Block.canonical b) = (Block.occurrences b).map Occurrence.canonical := by
  rw [canonical_eq_map, occurrences_eq_flatMap, occurrences_eq_flatMap, List.map_flatMap,
    List.flatMap_map]
  exact List.flatMap_congr members

theorem Statement.occurrences_canonical (s : Statement) :
    s.canonical.occurrences = s.occurrences.map Occurrence.canonical := by
  induction s using Statement.induct with
  | tau => rfl
  | act a => exact a.occurrences_canonical
  | invoke m f xs =>
    rw [canonical, occurrences, occurrences, Parameter.actuals_map_shared, map_canonical_named]
  | branch c t e ht he =>
    rw [canonical, occurrences, occurrences, List.map_append,
      Block.occurrences_canonical_of_members ht, Block.occurrences_canonical_of_members he]
  | select cs hcs =>
    rw [canonical, occurrences, occurrences, canonicalCases_eq_map, caseOccurrences_eq_flatMap,
      caseOccurrences_eq_flatMap, List.map_flatMap, List.flatMap_map]
    exact List.flatMap_congr fun b member => Block.occurrences_canonical_of_members (hcs b member)

theorem Block.occurrences_orIdle (b : Block) :
    Block.occurrences (Block.orIdle b) = Block.occurrences b := by
  cases b <;> rfl

theorem Function.occurrences_canonical (f : Function) :
    f.canonical.occurrences = f.occurrences.map Occurrence.canonical := by
  have body : Block.occurrences f.canonical.body =
      (Block.occurrences f.body).map Occurrence.canonical := by
    change Block.occurrences (Block.orIdle (Block.canonical f.body)) = _
    rw [Block.occurrences_orIdle]
    exact Block.occurrences_canonical_of_members fun s _ => s.occurrences_canonical
  have formals : Parameter.formals f.canonical.parameters = Parameter.formals f.parameters :=
    Parameter.formals_map_shared _
  rw [occurrences, body, formals, occurrences, List.map_append, map_canonical_named]

/-! In what is read, every variable is a word of the text. -/

namespace Grammar

theorem word_of_action {a : Action} (formed : ∀ t ∈ a.tokens, t.Formed) :
    ∀ v ∈ a.occurrences, IsWord v.name := by
  cases a with
  | newChannel x label n =>
    exact List.forall_mem_singleton.mpr (formed (.identifier x) (by simp [Action.tokens]))
  | perform o x =>
    exact List.forall_mem_singleton.mpr (formed (.identifier x) (by simp [Action.tokens]))

theorem word_of_named {xs : List String} (words : ∀ x ∈ xs, IsWord x) :
    ∀ v ∈ xs.map (Occurrence.mk · false), IsWord v.name :=
  List.forall_mem_map.mpr words

mutual

theorem StatementTree.words : ∀ {s : StatementTree}, (∀ t ∈ s.tokens, t.Formed) →
    ∀ v ∈ s.statement.occurrences, IsWord v.name
  | .tau, _ => by simp [StatementTree.statement, Statement.occurrences]
  | .act a, formed => word_of_action formed
  | .invoke m f xs, formed => by
    have names : ∀ x ∈ xs.names, IsWord x := ParameterTree.formed fun t member =>
      formed t (List.mem_cons_of_mem _ (List.mem_cons_of_mem _ member))
    rw [StatementTree.statement, Statement.occurrences, Parameter.actuals_map_shared]
    exact word_of_named names
  | .branch t e, formed => by
    simp only [StatementTree.tokens, List.forall_mem_append, List.forall_mem_cons] at formed
    obtain ⟨⟨⟨-, thenTokens⟩, -, elseTokens⟩, -⟩ := formed
    exact List.forall_mem_append.mpr ⟨BlockTree.words thenTokens, BlockTree.words elseTokens⟩
  | .select cs, formed => by
    simp only [StatementTree.tokens, List.forall_mem_append, List.forall_mem_cons] at formed
    obtain ⟨⟨-, tokens⟩, -⟩ := formed
    exact CaseTree.words tokens

theorem BlockTree.words : ∀ {b : BlockTree}, (∀ t ∈ b.tokens, t.Formed) →
    ∀ v ∈ Block.occurrences b.block, IsWord v.name
  | .one s, formed => by
    rw [BlockTree.tokens, List.forall_mem_append] at formed
    rw [BlockTree.block, Block.occurrences_eq_flatMap, List.flatMap_singleton]
    exact StatementTree.words formed.1
  | .more before s, formed => by
    simp only [BlockTree.tokens, List.forall_mem_append] at formed
    have first := BlockTree.words formed.1
    rw [Block.occurrences_eq_flatMap] at first
    rw [BlockTree.block, Block.occurrences_eq_flatMap, List.flatMap_append, List.flatMap_singleton]
    exact List.forall_mem_append.mpr ⟨first, StatementTree.words formed.2.1⟩

theorem CaseTree.words : ∀ {cs : CaseTree}, (∀ t ∈ cs.tokens, t.Formed) →
    ∀ v ∈ Statement.caseOccurrences cs.blocks, IsWord v.name
  | .none, _ => by simp [CaseTree.blocks, Statement.caseOccurrences]
  | .more before b, formed => by
    simp only [CaseTree.tokens, List.forall_mem_append, List.forall_mem_cons] at formed
    have first := CaseTree.words formed.1
    rw [Statement.caseOccurrences_eq_flatMap] at first
    rw [CaseTree.blocks, Statement.caseOccurrences_eq_flatMap, List.flatMap_append,
      List.flatMap_singleton]
    exact List.forall_mem_append.mpr ⟨first, BlockTree.words formed.2.2⟩

end

end Grammar

namespace Program

variable {text : String} {p : Program} {f : Function}

theorem words_of_read (accepted : read text = .ok p) (member : f ∈ p.functions) :
    ∀ v ∈ f.occurrences, IsWord v.name := by
  obtain ⟨tree, formed, rfl⟩ := exists_tree_of_read accepted member
  obtain ⟨-, formals, body⟩ := tree.formed formed
  rw [function_eq, Function.occurrences, Parameter.formals_map_shared]
  refine List.forall_mem_append.mpr ⟨Grammar.word_of_named fun x once => ?_, tree.body.words body⟩
  exact formals x (List.mem_eraseDups.mp once)

/-- The text of one function is read as what it stands for. -/
theorem read_render_function (accepted : read text = .ok p) (member : f ∈ p.functions) :
    read f.render = .ok ⟨[f.canonical]⟩ := by
  have printable : (mk [f]).Printable :=
    ⟨List.cons_ne_nil _ _,
      List.forall_mem_singleton.mpr ((printable_read accepted).functions f member)⟩
  have formals : ∀ g ∈ (mk [f]).functions, (Parameter.formals g.parameters).Nodup :=
    List.forall_mem_singleton.mpr (nodup_formals_read accepted member)
  have text' : (mk [f]).render = f.render := by simp [render, String.join]
  rw [← text', read_canonical printable formals]
  rfl

end Program

/-! Naming the same variables. -/

/-- Two functions with variables in the same places, which name the same variables alike. -/
structure Function.NamesAlike (f g : Function) : Prop where
  places : g.occurrences.length = f.occurrences.length
  names : ∀ v ∈ f.occurrences.zip g.occurrences, ∀ w ∈ f.occurrences.zip g.occurrences,
    v.1.name = w.1.name ↔ v.2.name = w.2.name

/-- An accessed name with a path is nowhere named without an access, and no other variable is
written like it. -/
structure Function.PathsApart (f : Function) : Prop where
  accessed : ∀ v ∈ f.occurrences, v.accessed = true → '/' ∈ v.name.toList →
    ∀ w ∈ f.occurrences, w.name = v.name → w.accessed = true
  distinct : ∀ v ∈ f.occurrences, v.accessed = true → '/' ∈ v.name.toList →
    ∀ w ∈ f.occurrences, w.shown = v.shown → w.name = v.name

theorem Name.written_eq_self_iff {x : String} (word : IsWord x) :
    written x = x ↔ '/' ∉ x.toList := by
  refine ⟨fun same slash => ?_, written_eq_self word⟩
  have text := toList_written_of_word word
  rw [same] at text
  rw [text] at slash
  obtain ⟨c, -, separator⟩ := List.mem_map.mp slash
  split at separator
  · contradiction
  · contradiction

theorem Occurrence.shown_eq_name_iff {v : Occurrence} (word : IsWord v.name) :
    v.shown = v.name ↔ (v.accessed = true → '/' ∉ v.name.toList) := by
  rw [shown]
  split
  · next accessed => rw [Name.written_eq_self_iff word, forall_prop_of_true accessed]
  · next named => exact iff_of_true rfl fun accessed => absurd accessed named

theorem Occurrence.canonical_eq_self_iff {v : Occurrence} : v.canonical = v ↔ v.shown = v.name := by
  rw [canonical]
  exact ⟨congrArg name, fun same => by rw [same]⟩

theorem Function.zip_occurrences_canonical (f : Function) :
    f.occurrences.zip f.canonical.occurrences = f.occurrences.map fun v => (v, v.canonical) := by
  rw [occurrences_canonical]
  exact List.map_prod_left_eq_zip.symm

theorem Function.namesAlike_canonical_iff (f : Function) : f.NamesAlike f.canonical ↔
    ∀ v ∈ f.occurrences, ∀ w ∈ f.occurrences, v.name = w.name ↔ v.shown = w.shown := by
  have places : f.canonical.occurrences.length = f.occurrences.length := by
    rw [occurrences_canonical, List.length_map]
  constructor
  · rintro ⟨-, names⟩
    rw [zip_occurrences_canonical] at names
    exact fun v member w member' =>
      names _ (List.mem_map_of_mem member) _ (List.mem_map_of_mem member')
  · intro names
    refine ⟨places, ?_⟩
    rw [zip_occurrences_canonical]
    refine List.forall_mem_map.mpr fun v member => List.forall_mem_map.mpr fun w member' => ?_
    exact names v member w member'

theorem Function.pathsApart_iff {f : Function} (words : ∀ v ∈ f.occurrences, IsWord v.name) :
    (∀ v ∈ f.occurrences, ∀ w ∈ f.occurrences, v.name = w.name ↔ v.shown = w.shown) ↔
      f.PathsApart := by
  constructor
  · intro alike
    refine ⟨fun v member accessed path w member' same => ?_,
      fun v member _ _ w member' same => (alike w member' v member).mpr same⟩
    have shown := (alike w member' v member).mp same
    by_contra named
    rw [Occurrence.shown, if_neg named, Occurrence.shown, if_pos accessed, same, eq_comm,
      Name.written_eq_self_iff (words v member)] at shown
    exact shown path
  · intro apart
    have settled {v w : Occurrence} (member : v ∈ f.occurrences) (member' : w ∈ f.occurrences)
        (accessed : v.accessed = true) (path : '/' ∈ v.name.toList) :
        v.name = w.name ↔ v.shown = w.shown := by
      constructor
      · intro same
        have other := apart.accessed v member accessed path w member' same.symm
        rw [Occurrence.shown, Occurrence.shown, accessed, other, same]
      · intro shown
        exact (apart.distinct v member accessed path w member' shown.symm).symm
    intro v member w member'
    by_cases first : v.accessed = true ∧ '/' ∈ v.name.toList
    · exact settled member member' first.1 first.2
    by_cases second : w.accessed = true ∧ '/' ∈ w.name.toList
    · rw [eq_comm, settled member' member second.1 second.2, eq_comm]
    -- where neither name is written otherwise, the names are what is shown
    rw [(Occurrence.shown_eq_name_iff (words v member)).mpr (not_and.mp first),
      (Occurrence.shown_eq_name_iff (words w member')).mpr (not_and.mp second)]

/-- The text of a function that is read has the same variables in the same places. It names two of
them alike where the function does, and only there, exactly where the accessed names with paths
stand apart; and it has the very names of the function exactly where no accessed name has a path. -/
theorem Program.names_alike_iff {text : String} {p : Program} (accepted : read text = .ok p)
    {f : Function} (member : f ∈ p.functions) : ∃ g, read f.render = .ok ⟨[g]⟩ ∧
      (f.NamesAlike g ↔ f.PathsApart) ∧
      (g.occurrences = f.occurrences ↔
        ∀ v ∈ f.occurrences, v.accessed = true → '/' ∉ v.name.toList) := by
  have words := words_of_read accepted member
  refine ⟨f.canonical, read_render_function accepted member, ?_, ?_⟩
  · exact f.namesAlike_canonical_iff.trans (Function.pathsApart_iff words)
  · rw [Function.occurrences_canonical, map_eq_self_iff]
    refine forall₂_congr fun v inside => ?_
    rw [Occurrence.canonical_eq_self_iff, Occurrence.shown_eq_name_iff (words v inside)]

/-- A lock with a path in its name, beside two parameters. -/
theorem Program.names_alike_iff_guarded :
    let f := Definition.function ⟨"f", ["m", "x"],
      [.act (.perform .lock "a/b"), .act (.perform .send "m"), .act (.perform .unlock "a/b"),
        .act (.perform .read "x")]⟩
    read "def f(m, x): lock a/b; send m; unlock a/b; read x;" = .ok ⟨[f]⟩ ∧
      ∃ g, read f.render = .ok ⟨[g]⟩ ∧ f.NamesAlike g ∧ g.occurrences ≠ f.occurrences := by
  intro f
  have accepted : read "def f(m, x): lock a/b; send m; unlock a/b; read x;" = .ok ⟨[f]⟩ := by
    decide +kernel
  have apart : f.PathsApart := ⟨by decide +kernel, by decide +kernel⟩
  obtain ⟨g, again, alike, same⟩ := names_alike_iff accepted (List.mem_singleton.mpr rfl)
  refine ⟨accepted, g, again, alike.mpr apart, fun unchanged => ?_⟩
  exact same.mp unchanged ⟨"a/b", true⟩ (by decide +kernel) rfl (by decide +kernel)

namespace Function

/-- Two mutexes whose names differ in nothing but a path separator, the first one locked. -/
def twinMutexes : Function :=
  Definition.function ⟨"f", [], [.act (.perform .newMutex "a/b"),
    .act (.perform .newMutex "a_b"), .act (.perform .lock "a/b")]⟩

/-- What is locked in the text is the second mutex. -/
theorem not_names_alike_twinMutexes :
    Program.read "def f(): letsync a/b mutex; letsync a_b mutex; lock a/b;" = .ok ⟨[twinMutexes]⟩ ∧
      ∃ g, Program.read twinMutexes.render = .ok ⟨[g]⟩ ∧ ¬ twinMutexes.NamesAlike g ∧
        g.body = [.act (.perform .newMutex "a/b"), .act (.perform .newMutex "a_b"),
          .act (.perform .lock "a_b")] := by
  refine ⟨by decide +kernel, twinMutexes.canonical, by decide +kernel, fun alike => ?_,
    by decide +kernel⟩
  have declared : (⟨"a/b", false⟩, ⟨"a/b", false⟩) ∈
      twinMutexes.occurrences.zip twinMutexes.canonical.occurrences := by decide +kernel
  have locked : (⟨"a/b", true⟩, ⟨"a_b", true⟩) ∈
      twinMutexes.occurrences.zip twinMutexes.canonical.occurrences := by decide +kernel
  have one : "a/b" = "a_b" := (alike.names _ declared _ locked).mp rfl
  exact absurd one (by decide)

end Function
end ProcessCalculus
