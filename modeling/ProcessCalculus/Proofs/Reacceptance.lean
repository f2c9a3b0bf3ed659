import ProcessCalculus.CommandLine
import ProcessCalculus.Proofs.Canonical
import ProcessCalculus.Proofs.Refusal
import ProcessCalculus.Proofs.Survivors

/-!
What shrinking writes is read again. Where a function is left, the text of the shrunk program has
its place in the grammar, and without path separators it is read as the shrunk program itself.
Where none is left the text is empty, and no empty text is a program.
-/
namespace ProcessCalculus

open Token (IsWord)

/-! The names that occur in a program. -/

def Action.mentions : Action → List String
  | .newChannel name label _ => [name, label]
  | .perform _ target => [target]

mutual

def Statement.mentions : Statement → List String
  | .tau => []
  | .act a => a.mentions
  | .invoke _ callee arguments =>
    callee :: (Parameter.actuals arguments ++ Parameter.formals arguments)
  | .branch loop thenBody elseBody =>
    loop.toList ++ (Block.mentions thenBody ++ Block.mentions elseBody)
  | .select cases => Statement.caseMentions cases

def Block.mentions : List Statement → List String
  | [] => []
  | s :: rest => s.mentions ++ Block.mentions rest

def Statement.caseMentions : List (List Statement) → List String
  | [] => []
  | body :: rest => Block.mentions body ++ Statement.caseMentions rest

end

def Function.mentions (f : Function) : List String :=
  f.name :: (Parameter.actuals f.parameters ++ Parameter.formals f.parameters ++
    Block.mentions f.body)

def Program.mentions (p : Program) : List String := p.functions.flatMap Function.mentions

theorem Block.mentions_append (a b : Block) :
    Block.mentions (a ++ b) = Block.mentions a ++ Block.mentions b := by
  induction a with
  | nil => rfl
  | cons s a ih => rw [List.cons_append, mentions, mentions, ih, List.append_assoc]

theorem Statement.caseMentions_append (cs ds : List Block) :
    Statement.caseMentions (cs ++ ds) = Statement.caseMentions cs ++ Statement.caseMentions ds := by
  induction cs with
  | nil => rfl
  | cons b cs ih => rw [List.cons_append, caseMentions, caseMentions, ih, List.append_assoc]

/-! What is read without path separators is what its text stands for. -/

/-- Names without path separators. -/
def Pathless (names : List String) : Prop := ∀ x ∈ names, '/' ∉ x.toList

instance (names : List String) : Decidable (Pathless names) :=
  inferInstanceAs (Decidable (∀ x ∈ names, '/' ∉ x.toList))

theorem Block.canonical_eq_self_iff {b : Block} :
    Block.canonical b = b ↔ ∀ s ∈ b, s.canonical = s := by
  rw [canonical_eq_map, map_eq_self_iff]

theorem Operation.shown_eq_self {x : String} (word : IsWord x) (plain : '/' ∉ x.toList)
    (o : Operation) : o.shown x = x := by
  cases o with
  | read | write | lock | unlock | readLock | readUnlock => exact Name.written_eq_self word plain
  | _ => rfl

namespace Grammar

theorem canonical_action {a : Action} (formed : ∀ t ∈ a.tokens, t.Formed)
    (plain : Pathless a.mentions) : a.canonical = a := by
  cases a with
  | newChannel x label n =>
    have word : IsWord label := formed (.identifier label) (by simp [Action.tokens])
    rw [Action.canonical, Name.written_eq_self word (plain label (by simp [Action.mentions]))]
  | perform o x =>
    have word : IsWord x := formed (.identifier x) (by simp [Action.tokens])
    rw [Action.canonical, Operation.shown_eq_self word (plain x (by simp [Action.mentions]))]

mutual

theorem StatementTree.canonical_statement : ∀ {s : StatementTree}, (∀ t ∈ s.tokens, t.Formed) →
    Pathless s.statement.mentions → s.statement.canonical = s.statement
  | .tau, _, _ => rfl
  | .act a, formed, plain => congrArg Statement.act (canonical_action formed plain)
  | .invoke m f xs, formed, plain => by
    have word : IsWord f := formed (.identifier f) (by simp [StatementTree.tokens])
    have name := Name.written_eq_self word (plain f List.mem_cons_self)
    rw [StatementTree.statement, Statement.canonical, name, Parameter.actuals_map_shared]
  | .branch t e, formed, plain => by
    simp only [StatementTree.tokens, List.forall_mem_append, List.forall_mem_cons] at formed
    obtain ⟨⟨⟨-, thenTokens⟩, -, elseTokens⟩, -⟩ := formed
    obtain ⟨-, plain⟩ := List.forall_mem_append.mp plain
    obtain ⟨thenPlain, elsePlain⟩ := List.forall_mem_append.mp plain
    rw [StatementTree.statement, Statement.canonical,
      BlockTree.canonical_block thenTokens thenPlain, BlockTree.canonical_block elseTokens elsePlain]
  | .select cs, formed, plain => by
    simp only [StatementTree.tokens, List.forall_mem_append, List.forall_mem_cons] at formed
    obtain ⟨⟨-, tokens⟩, -⟩ := formed
    rw [StatementTree.statement, Statement.canonical, CaseTree.canonical_blocks tokens plain]

theorem BlockTree.canonical_block : ∀ {b : BlockTree}, (∀ t ∈ b.tokens, t.Formed) →
    Pathless (Block.mentions b.block) → Block.canonical b.block = b.block
  | .one s, formed, plain => by
    rw [BlockTree.tokens, List.forall_mem_append] at formed
    rw [BlockTree.block, Block.mentions, Block.mentions, List.append_nil] at plain
    rw [BlockTree.block, Block.canonical, StatementTree.canonical_statement formed.1 plain]
    rfl
  | .more before s, formed, plain => by
    simp only [BlockTree.tokens, List.forall_mem_append] at formed
    rw [BlockTree.block, Block.mentions_append, Block.mentions, Block.mentions,
      List.append_nil] at plain
    obtain ⟨beforePlain, lastPlain⟩ := List.forall_mem_append.mp plain
    have first := BlockTree.canonical_block formed.1 beforePlain
    have last := StatementTree.canonical_statement formed.2.1 lastPlain
    rw [Block.canonical_eq_map] at first ⊢
    rw [BlockTree.block, List.map_append, first, List.map_singleton, last]

theorem CaseTree.canonical_blocks : ∀ {cs : CaseTree}, (∀ t ∈ cs.tokens, t.Formed) →
    Pathless (Statement.caseMentions cs.blocks) →
    Statement.canonicalCases cs.blocks = cs.blocks
  | .none, _, _ => rfl
  | .more before b, formed, plain => by
    simp only [CaseTree.tokens, List.forall_mem_append, List.forall_mem_cons] at formed
    rw [CaseTree.blocks, Statement.caseMentions_append, Statement.caseMentions,
      Statement.caseMentions, List.append_nil] at plain
    obtain ⟨beforePlain, lastPlain⟩ := List.forall_mem_append.mp plain
    have first := CaseTree.canonical_blocks formed.1 beforePlain
    have last := BlockTree.canonical_block formed.2.2 lastPlain
    rw [Statement.canonicalCases_eq_map] at first ⊢
    rw [CaseTree.blocks, List.map_append, first, List.map_singleton, last]

end

end Grammar

/-! Pruning keeps that. -/

variable {kept : String → Bool}

theorem Block.canonical_prune_of_members {b : Block}
    (members : ∀ s ∈ b, s.canonical = s → ∀ u, s.prune kept = some u → u.canonical = u)
    (fixed : Block.canonical b = b) :
    Block.canonical (Block.prune kept b) = Block.prune kept b := by
  rw [canonical_eq_self_iff] at fixed ⊢
  exact forall_mem_prune rfl fun s member => members s member (fixed s member)

theorem Statement.canonical_prune {s u : Statement} (fixed : s.canonical = s)
    (left : s.prune kept = some u) : u.canonical = u := by
  induction s using Statement.induct generalizing u with
  | tau =>
    cases left
    rfl
  | act a =>
    cases left
    exact fixed
  | invoke m f xs =>
    rw [prune, Option.ite_none_right_eq_some] at left
    obtain ⟨-, same⟩ := left
    cases same
    exact fixed
  | branch c t e ht he =>
    rw [canonical, Statement.branch.injEq] at fixed
    obtain ⟨-, thenFixed, elseFixed⟩ := fixed
    have thenBody := Block.canonical_prune_of_members
      (fun s member fixed u left => ht s member fixed left) thenFixed
    have elseBody := Block.canonical_prune_of_members
      (fun s member fixed u left => he s member fixed left) elseFixed
    rw [prune] at left
    split at left
    · cases left
      rfl
    · cases left
      exact congrArg₂ (Statement.branch c) thenBody elseBody
  | select cs hcs =>
    rw [canonical, Statement.select.injEq, canonicalCases_eq_map, map_eq_self_iff] at fixed
    rw [prune, pruneCases_eq_map] at left
    cases left
    rw [canonical, canonicalCases_eq_map, List.map_map]
    refine congrArg Statement.select (List.map_congr_left fun b member => ?_)
    exact Block.canonical_prune_of_members
      (fun s inside fixed u left => hcs b member s inside fixed left) (fixed b member)

theorem Block.canonical_prune {b : Block} (fixed : Block.canonical b = b) :
    Block.canonical (Block.prune kept b) = Block.prune kept b :=
  canonical_prune_of_members (fun _ _ fixed _ left => Statement.canonical_prune fixed left) fixed

/-! Functions and programs. -/

/-- A function whose parts are as a text declares them. -/
theorem Function.canonical_eq_self {f : Function} (name : f.writtenName = f.name)
    (parameters : (Parameter.formals f.parameters).map Parameter.shared = f.parameters)
    (body : Block.canonical f.body = f.body) (nonempty : f.body ≠ [])
    (communicates : f.communicates = Block.communicates f.body) (saved : f.saved = []) :
    f.canonical = f := by
  have whole : f.definition.body = f.body := by
    rw [definition, body, Block.orIdle, if_neg nonempty]
  rw [canonical, name, parameters, whole, ← communicates, ← saved]

namespace Program

variable {p : Program}

theorem canonical_eq_self (distinct : p.names.Nodup)
    (functions : ∀ f ∈ p.functions, f.canonical = f) : p.canonical = p := by
  have names : p.writtenNames = p.names :=
    List.map_congr_left fun f member => congrArg Function.name (functions f member)
  have all : p.kept = p.functions := by
    refine eraseDupsBy_of_nodup ?_
    rw [← writtenNames, names]
    exact distinct
  refine congrArg mk ?_
  rw [← kept, all]
  exact map_eq_self_iff.mpr functions

/-- What is left of a function that was read without path separators. -/
theorem canonical_prune_read {text : String} (accepted : read text = .ok p)
    (plain : Pathless p.mentions) {f : Function} (member : f ∈ p.functions) (kept : String → Bool) :
    (f.withBody (Block.prune kept f.body)).canonical = f.withBody (Block.prune kept f.body) := by
  have mentions : Pathless f.mentions := List.forall_mem_flatMap.mp plain f member
  obtain ⟨tree, formed, rfl⟩ := exists_tree_of_read accepted member
  obtain ⟨word, -, tokens⟩ := tree.formed formed
  rw [function_eq] at mentions ⊢
  obtain ⟨name, rest⟩ := List.forall_mem_cons.mp mentions
  obtain ⟨-, body⟩ := List.forall_mem_append.mp rest
  refine Function.canonical_eq_self (Name.written_eq_self word name) ?_
    (Block.canonical_prune (tree.body.canonical_block tokens body)) (Block.prune_ne_nil _ _) rfl rfl
  exact congrArg _ (Parameter.formals_map_shared _)

theorem canonical_shrink_read {text : String} (accepted : read text = .ok p)
    (plain : Pathless p.mentions) : p.shrink.canonical = p.shrink := by
  refine canonical_eq_self (nodup_names_shrink (nodup_names_read accepted)) fun f member => ?_
  obtain ⟨g, inside, kept, rfl⟩ := mem_functions_shrink member
  exact canonical_prune_read accepted plain inside kept

theorem read_render_shrink_of_read {text : String} (accepted : read text = .ok p)
    (nonempty : p.shrink.functions ≠ []) : read p.shrink.render = .ok p.shrink.canonical := by
  refine read_canonical ((printable_shrink (printable_read accepted)).mpr nonempty) ?_
  intro f member
  obtain ⟨g, inside, kept, rfl⟩ := mem_functions_shrink member
  have distinct : (Parameter.formals g.parameters).Nodup := nodup_formals_read accepted inside
  exact distinct

theorem render_of_functions_eq_nil (empty : p.functions = []) : p.render = "" := by
  rw [render, empty]
  rfl

/-- No program is empty, so neither is its text. -/
theorem not_read_empty : ¬ ∃ q, read "" = .ok q := by
  rintro ⟨q, accepted⟩
  have refused : readWith false "" = .error ⟨⟨0, 0⟩, ⟨1, 0⟩, "syntax error"⟩ := by decide +kernel
  rw [← readWith_eq_ok_iff, refused] at accepted
  contradiction

theorem functions_ne_nil_of_read_render {q : Program} (accepted : read p.render = .ok q) :
    p.functions ≠ [] := by
  intro empty
  rw [render_of_functions_eq_nil empty] at accepted
  exact not_read_empty ⟨q, accepted⟩

/-- A function is left exactly where there is an entry or a body that shows something. -/
theorem functions_shrink_ne_nil_iff (distinct : p.names.Nodup) :
    p.shrink.functions ≠ [] ↔ entry ∈ p.names ∨ ∃ f ∈ p.functions, Block.Shows f.body := by
  have named : p.shrink.functions ≠ [] ↔ ∃ name, name ∈ p.names ∧ p.Survives name := by
    simp only [← mem_names_shrink distinct]
    constructor
    · intro nonempty
      obtain ⟨f, member⟩ := List.exists_mem_of_ne_nil _ nonempty
      exact ⟨f.name, mem_names.mpr ⟨f, member, rfl⟩⟩
    · rintro ⟨name, member⟩
      obtain ⟨f, inside, -⟩ := mem_names.mp member
      exact List.ne_nil_of_mem inside
  rw [named]
  constructor
  · rintro ⟨f, defined, survives⟩
    by_cases started : entry ∈ p.names
    · exact .inl started
    · obtain ⟨g, inside, -, shown⟩ := (survives_iff_observable started).mp survives
      exact .inr ⟨g, inside, shown⟩
  · intro left
    by_cases started : entry ∈ p.names
    · exact ⟨entry, started, (survives_iff started).mpr (.inl rfl)⟩
    · obtain ⟨g, inside, shown⟩ := left.resolve_left started
      exact ⟨g.name, mem_names.mpr ⟨g, inside, rfl⟩,
        (survives_iff_observable started).mpr ⟨g, inside, .refl, shown⟩⟩

theorem functions_shrink_eq_nil (distinct : p.names.Nodup)
    (silent : ¬ (entry ∈ p.names ∨ ∃ f ∈ p.functions, Block.Shows f.body)) :
    p.shrink.functions = [] :=
  not_not.mp (mt (functions_shrink_ne_nil_iff distinct).mp silent)

theorem read_render_shrink_iff {text : String} (accepted : read text = .ok p) :
    (∃ q, read p.shrink.render = .ok q) ↔
      entry ∈ p.names ∨ ∃ f ∈ p.functions, Block.Shows f.body := by
  rw [← functions_shrink_ne_nil_iff (nodup_names_read accepted)]
  constructor
  · rintro ⟨q, again⟩
    exact functions_ne_nil_of_read_render again
  · intro nonempty
    exact ⟨_, read_render_shrink_of_read accepted nonempty⟩

/-- Where no body shows anything, no call leads to one that does. -/
theorem not_observable_of_silent (silent : ¬ ∃ f ∈ p.functions, Block.Shows f.body) (f : String) :
    ¬ p.Observable f := by
  rintro ⟨g, member, -, shown⟩
  exact silent ⟨g, member, shown⟩

end Program

theorem fromUTF8?_toUTF8 (text : String) : String.fromUTF8? text.toUTF8 = some text := by
  rw [String.fromUTF8?, String.toUTF8_eq_toByteArray, dif_pos text.isValidUTF8]
  rfl

/-- A source in the text's encoding that is read is answered by the text of the shrunk program. -/
theorem CommandLine.respond_shrink {o : Options} (asked : o.shrink = true) {text : String}
    {p : Program} (accepted : Program.read text = .ok p) :
    (o.respond (some text.toUTF8)).status = 0 ∧
      (o.respond (some text.toUTF8)).output = p.shrink.render := by
  have content : (some text.toUTF8).bind String.fromUTF8? = some text := fromUTF8?_toUTF8 text
  rw [Options.respond, content]
  simp only [Program.readWith_eq_ok_iff.mpr accepted, asked, if_true, and_self]

namespace Program

/-- What is written of a shrunk program is read again where the program had an entry or a body that
shows something, and only there. Without path separators it is read as the shrunk program. Elsewhere
all functions are silent and nothing is left to write. -/
theorem read_render_shrink {text : String} {p : Program} (accepted : read text = .ok p) :
    (∀ o : CommandLine.Options, o.shrink = true →
      (o.respond (some text.toUTF8)).status = 0 ∧
        (o.respond (some text.toUTF8)).output = p.shrink.render) ∧
    ((∃ q, read p.shrink.render = .ok q) ↔
      entry ∈ p.names ∨ ∃ f ∈ p.functions, Block.Shows f.body) ∧
    ((entry ∈ p.names ∨ ∃ f ∈ p.functions, Block.Shows f.body) → Pathless p.mentions →
      read p.shrink.render = .ok p.shrink) ∧
    (¬ (entry ∈ p.names ∨ ∃ f ∈ p.functions, Block.Shows f.body) →
      (∀ f ∈ p.functions, ¬ p.Observable f.name) ∧ p.shrink.functions = [] ∧
        p.shrink.render = "" ∧ ¬ ∃ q, read "" = .ok q) := by
  have distinct := nodup_names_read accepted
  refine ⟨fun o asked => CommandLine.respond_shrink asked accepted,
    read_render_shrink_iff accepted, fun left plain => ?_, fun silent => ?_⟩
  · have nonempty := (functions_shrink_ne_nil_iff distinct).mpr left
    rw [read_render_shrink_of_read accepted nonempty, canonical_shrink_read accepted plain]
  · have gone := functions_shrink_eq_nil distinct silent
    have hidden := not_observable_of_silent (not_or.mp silent).2
    exact ⟨fun f _ => hidden f.name, gone, render_of_functions_eq_nil gone, not_read_empty⟩

/-- A call of a silent function, alone in its branch. -/
def courier : String :=
  "def main.main(): if call idle(); else call run(x); endif; def idle(): tau; def run(y): send y;"

/-- A silent function without an entry. -/
def idler : String := "def f(): tau;"

theorem read_idler : read idler = .ok (ofDefinitions [⟨"f", [], [.tau]⟩]) := by decide +kernel

theorem idler_silent : ¬ (entry ∈ (ofDefinitions [⟨"f", [], [.tau]⟩]).names ∨
    ∃ f ∈ (ofDefinitions [⟨"f", [], [.tau]⟩]).functions, Block.Shows f.body) := by
  rintro (started | ⟨f, declared, shown⟩)
  · exact absurd started (by decide +kernel)
  · obtain ⟨d, member, rfl⟩ := mem_functions_ofDefinitions declared
    rw [List.mem_singleton.mp member] at shown
    exact (Block.quiet_iff [.tau]).mp rfl shown

theorem read_render_shrink_courier :
    (∃ p, read courier = .ok p ∧ entry ∈ p.names ∧
      Pathless p.mentions ∧ read p.shrink.render = .ok p.shrink ∧
      ((⟨false, true, false, none⟩ : CommandLine.Options).respond (some courier.toUTF8)).output =
        p.shrink.render) ∧
    ∃ p, read idler = .ok p ∧ p.names = ["f"] ∧ ¬ p.Observable "f" ∧ p.shrink.functions = [] ∧
      p.shrink.render = "" := by
  have accepted : read courier = .ok (ofDefinitions
      [⟨entry, [], [.branch none [.invoke .call "idle" []] [.invoke .call "run" [.shared "x"]]]⟩,
        ⟨"idle", [], [.tau]⟩, ⟨"run", ["y"], [.act (.perform .send "y")]⟩]) := by decide +kernel
  obtain ⟨answers, -, same, -⟩ := read_render_shrink accepted
  obtain ⟨-, -, -, nothing⟩ := read_render_shrink read_idler
  obtain ⟨hidden, gone, unwritten, -⟩ := nothing idler_silent
  exact ⟨⟨_, accepted, by decide +kernel, by decide +kernel,
    same (.inl (by decide +kernel)) (by decide +kernel), (answers _ rfl).2⟩,
    _, read_idler, by decide +kernel, hidden (.ofBody "f" [] [.tau]) (by decide +kernel), gone,
    unwritten⟩

/-- Nothing is left of a silent function without an entry, and nothing is no program. -/
theorem not_read_render_shrink_idle : ∃ p, read "def f(): tau;" = .ok p ∧ p.shrink.render = "" ∧
    ¬ ∃ q, read p.shrink.render = .ok q := by
  have gone := functions_shrink_eq_nil (nodup_names_read read_idler) idler_silent
  refine ⟨_, read_idler, render_of_functions_eq_nil gone, ?_⟩
  rw [render_of_functions_eq_nil gone]
  exact not_read_empty

end Program
end ProcessCalculus
