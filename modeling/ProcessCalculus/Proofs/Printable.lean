import ProcessCalculus.Proofs.Lexing
import ProcessCalculus.Proofs.Reading
import ProcessCalculus.Shrink

/-!
Programs that the notation can write, and the program that their text declares. Names are judged as
they are written: some by their written name, call arguments by the name at the call and formal
parameters by the name inside the function.
-/
namespace ProcessCalculus

open Token (IsWord)

/-- The name that an action is written with. -/
def Operation.shown (operation : Operation) (target : String) : String :=
  match operation with
  | .read | .write | .lock | .unlock | .readLock | .readUnlock => Name.written target
  | _ => target

def Action.Printable : Action → Prop
  | .newChannel name label capacity =>
    IsWord name ∧ IsWord (Name.written label) ∧ 0 ≤ capacity.toInt
  | .perform operation target => IsWord (operation.shown target)

inductive Statement.Printable : Statement → Prop where
  | tau : Printable .tau
  | act {a : Action} : a.Printable → Printable (.act a)
  | invoke (m : Transfer) {f : String} {xs : List Parameter} : IsWord (Name.written f) →
      (∀ x ∈ xs, IsWord x.actual) → Printable (.invoke m f xs)
  | branch {t e : Block} : t ≠ [] → e ≠ [] → (∀ s ∈ t, Printable s) → (∀ s ∈ e, Printable s) →
      Printable (.branch none t e)
  | select {cs : List Block} : (∀ b ∈ cs, b ≠ []) → (∀ b ∈ cs, ∀ s ∈ b, Printable s) →
      Printable (.select cs)

structure Function.Printable (f : Function) : Prop where
  name : IsWord f.writtenName
  formals : ∀ x ∈ f.parameters, IsWord x.formal
  body : ∀ s ∈ f.body, s.Printable

structure Program.Printable (p : Program) : Prop where
  nonempty : p.functions ≠ []
  functions : ∀ f ∈ p.functions, f.Printable

/-! What the text of a program stands for: the names as they are written, and nothing else. -/

def Action.canonical : Action → Action
  | .newChannel name label capacity => .newChannel name (Name.written label) capacity
  | .perform operation target => .perform operation (operation.shown target)

mutual

def Statement.canonical : Statement → Statement
  | .tau => .tau
  | .act a => .act a.canonical
  | .invoke m f xs => .invoke m (Name.written f) ((Parameter.actuals xs).map Parameter.shared)
  | .branch c t e => .branch c (Block.canonical t) (Block.canonical e)
  | .select cs => .select (Statement.canonicalCases cs)

def Block.canonical : List Statement → List Statement
  | [] => []
  | s :: rest => s.canonical :: Block.canonical rest

def Statement.canonicalCases : List (List Statement) → List (List Statement)
  | [] => []
  | b :: rest => Block.canonical b :: Statement.canonicalCases rest

end

theorem Block.canonical_eq_map (b : Block) : Block.canonical b = b.map Statement.canonical := by
  induction b with
  | nil => rfl
  | cons s b ih => rw [canonical, ih, List.map_cons]

theorem Statement.canonicalCases_eq_map (cs : List Block) :
    Statement.canonicalCases cs = cs.map Block.canonical := by
  induction cs with
  | nil => rfl
  | cons b cs ih => rw [canonicalCases, ih, List.map_cons]

/-- The definition that the text of a function is. -/
def Function.definition (f : Function) : Definition :=
  ⟨f.writtenName, Parameter.formals f.parameters, Block.orIdle (Block.canonical f.body)⟩

def Function.canonical (f : Function) : Function :=
  { name := f.writtenName
    parameters := (Parameter.formals f.parameters).map Parameter.shared
    body := f.definition.body
    communicates := Block.communicates f.definition.body
    saved := [] }

/-- The first function of each written name. -/
def Program.canonical (p : Program) : Program :=
  ⟨(p.functions.eraseDupsBy fun f g => f.writtenName == g.writtenName).map Function.canonical⟩

/-! What is read is printable. -/

theorem Name.writtenChar_of_wordChar {c : Char} (wordChar : Token.isWordChar c = true) :
    writtenChar c = some (if c = '/' then '_' else c) := by
  have kept : c ∉ ['(', ')', '*', '"', '-'] := by
    intro member
    simp only [List.mem_cons, List.not_mem_nil, or_false] at member
    rcases member with rfl | rfl | rfl | rfl | rfl <;> exact absurd wordChar (by decide)
  rw [writtenChar, if_neg kept]
  split <;> rfl

theorem Name.toList_written_of_word {x : String} (word : IsWord x) :
    (written x).toList = x.toList.map fun c => if c = '/' then '_' else c := by
  rw [toList_written]
  have chars := word.chars
  generalize x.toList = cs at chars
  induction cs with
  | nil => rfl
  | cons c cs ih =>
    rw [List.filterMap_cons, writtenChar_of_wordChar (chars c List.mem_cons_self), List.map_cons,
      ih fun d member => chars d (List.mem_cons_of_mem c member)]

theorem Name.written_eq_self {x : String} (word : IsWord x) (plain : '/' ∉ x.toList) :
    written x = x := by
  rw [← String.toList_inj, toList_written_of_word word]
  refine (List.map_congr_left fun c member => ?_).trans (List.map_id _)
  have other : c ≠ '/' := by
    rintro rfl
    exact plain member
  rw [if_neg other, id]

/-- No keyword and no numeral has an underscore. -/
theorem no_underscore_keyword (k : Keyword) : '_' ∉ k.text.toList := by
  cases k <;> decide

theorem isWord_written {x : String} (word : IsWord x) : IsWord (Name.written x) := by
  have text := Name.toList_written_of_word word
  by_cases slash : '/' ∈ x.toList
  · have underscore : '_' ∈ (Name.written x).toList := by
      rw [text]
      exact List.mem_map.mpr ⟨'/', slash, rfl⟩
    refine ⟨by simpa [text] using word.nonempty, ?_, ?_, ?_⟩
    · intro c member
      rw [text] at member
      obtain ⟨d, inside, rfl⟩ := List.mem_map.mp member
      split
      · decide
      · exact word.chars d inside
    · intro k same
      rw [same] at underscore
      exact no_underscore_keyword k underscore
    · refine if_neg ?_
      rintro ⟨-, digits, -⟩
      exact absurd (List.all_eq_true.mp digits '_' underscore) (by decide)
  · rwa [Name.written_eq_self word slash]

theorem isWord_shown {x : String} (word : IsWord x) (o : Operation) : IsWord (o.shown x) := by
  cases o with
  | read | write | lock | unlock | readLock | readUnlock => exact isWord_written word
  | _ => exact word

namespace Grammar

theorem NameTree.formed {xs : NameTree} (formed : ∀ t ∈ xs.tokens, t.Formed) :
    ∀ x ∈ xs.names, IsWord x := by
  induction xs with
  | one x =>
    intro y member
    rw [List.mem_singleton.mp member]
    exact formed (.identifier x) List.mem_cons_self
  | more before x ih =>
    rw [tokens, List.forall_mem_append] at formed
    intro y member
    rcases List.mem_append.mp member with member | member
    · exact ih formed.1 y member
    · rw [List.mem_singleton.mp member]
      exact formed.2 (.identifier x) (by simp)

theorem ParameterTree.formed {xs : ParameterTree} (formed : ∀ t ∈ xs.tokens, t.Formed) :
    ∀ x ∈ xs.names, IsWord x := by
  cases xs with
  | none => simp [names]
  | some xs =>
    refine NameTree.formed fun t member => formed t ?_
    exact List.mem_append_left _ (List.mem_cons_of_mem _ member)

theorem printable_action {a : Action} (formed : ∀ t ∈ a.tokens, t.Formed) : a.Printable := by
  cases a with
  | newChannel x label n =>
    have name : IsWord x := formed (.identifier x) (by simp [Action.tokens])
    have written : IsWord label := formed (.identifier label) (by simp [Action.tokens])
    exact ⟨name, isWord_written written, formed (.number n) (by simp [Action.tokens])⟩
  | perform o x =>
    have name : IsWord x := formed (.identifier x) (by simp [Action.tokens])
    exact isWord_shown name o

mutual

theorem StatementTree.printable :
    ∀ {s : StatementTree}, (∀ t ∈ s.tokens, t.Formed) → s.statement.Printable
  | .tau, _ => .tau
  | .act a, formed => .act (printable_action formed)
  | .invoke m f xs, formed => by
    have name : IsWord f := formed (.identifier f) (by simp [StatementTree.tokens])
    have names : ∀ x ∈ xs.names, IsWord x := ParameterTree.formed fun t member =>
      formed t (List.mem_cons_of_mem _ (List.mem_cons_of_mem _ member))
    refine .invoke m (isWord_written name) fun x member => ?_
    obtain ⟨y, inside, rfl⟩ := List.mem_map.mp member
    exact names y inside
  | .branch t e, formed => by
    simp only [StatementTree.tokens, List.forall_mem_append, List.forall_mem_cons] at formed
    obtain ⟨⟨⟨-, thenTokens⟩, -, elseTokens⟩, -⟩ := formed
    exact .branch t.block_ne_nil e.block_ne_nil (BlockTree.printable thenTokens)
      (BlockTree.printable elseTokens)
  | .select cs, formed => by
    simp only [StatementTree.tokens, List.forall_mem_append, List.forall_mem_cons] at formed
    obtain ⟨⟨-, tokens⟩, -⟩ := formed
    have cases' := CaseTree.printable tokens
    exact .select (fun b member => (cases' b member).1) (fun b member => (cases' b member).2)

theorem BlockTree.printable :
    ∀ {b : BlockTree}, (∀ t ∈ b.tokens, t.Formed) → ∀ s ∈ b.block, s.Printable
  | .one s, formed => by
    rw [BlockTree.tokens, List.forall_mem_append] at formed
    intro u member
    rw [List.mem_singleton.mp member]
    exact StatementTree.printable formed.1
  | .more before s, formed => by
    simp only [BlockTree.tokens, List.forall_mem_append] at formed
    intro u member
    rcases List.mem_append.mp member with member | member
    · exact BlockTree.printable formed.1 u member
    · rw [List.mem_singleton.mp member]
      exact StatementTree.printable formed.2.1

theorem CaseTree.printable : ∀ {cs : CaseTree}, (∀ t ∈ cs.tokens, t.Formed) →
    ∀ b ∈ cs.blocks, b ≠ [] ∧ ∀ s ∈ b, s.Printable
  | .none, _ => by simp [CaseTree.blocks]
  | .more before b, formed => by
    simp only [CaseTree.tokens, List.forall_mem_append, List.forall_mem_cons] at formed
    intro c member
    rcases List.mem_append.mp member with member | member
    · exact CaseTree.printable formed.1 c member
    · rw [List.mem_singleton.mp member]
      exact ⟨b.block_ne_nil, BlockTree.printable formed.2.2⟩

end

theorem DefinitionTree.formed {d : DefinitionTree} (formed : ∀ t ∈ d.tokens, t.Formed) :
    IsWord d.name ∧ (∀ x ∈ d.parameters.names, IsWord x) ∧ ∀ t ∈ d.body.tokens, t.Formed := by
  simp only [DefinitionTree.tokens, List.forall_mem_append, List.forall_mem_cons] at formed
  obtain ⟨⟨-, name, parameters⟩, -, body⟩ := formed
  exact ⟨name, ParameterTree.formed parameters, body⟩

/-- A program is made of trees that derive no other tokens than its own. -/
theorem ProgramTree.exists_formed {p : ProgramTree} (formed : ∀ t ∈ p.tokens, t.Formed)
    {d : Definition} (member : d ∈ p.definitions) :
    ∃ tree : DefinitionTree, tree.definition = d ∧ ∀ t ∈ tree.tokens, t.Formed := by
  induction p with
  | one e => exact ⟨e, (List.mem_singleton.mp member).symm, formed⟩
  | more before e ih =>
    rw [tokens, List.forall_mem_append] at formed
    rcases List.mem_append.mp member with member | member
    · exact ih formed.1 member
    · exact ⟨e, (List.mem_singleton.mp member).symm, formed.2⟩

end Grammar

namespace Program

/-- Every function that is read is declared by a tree of well-formed tokens. -/
theorem exists_tree_of_read {text : String} {p : Program} (accepted : read text = .ok p)
    {f : Function} (member : f ∈ p.functions) :
    ∃ tree : Grammar.DefinitionTree, (∀ t ∈ tree.tokens, t.Formed) ∧
      tree.definition.function = f := by
  obtain ⟨ds, definitions, rfl⟩ := read_eq_ok_iff_definitions.mp accepted
  obtain ⟨⟨tree, tokens⟩, rfl⟩ := readDefinitions_eq_ok_iff.mp definitions
  have formed : ∀ t ∈ tree.tokens, t.Formed := by
    rw [tokens]
    exact Token.formed_tokens text
  obtain ⟨d, declared, rfl⟩ := mem_functions_ofDefinitions member
  obtain ⟨tree, rfl, formed⟩ := tree.exists_formed formed declared
  exact ⟨tree, formed, rfl⟩

theorem printable_read {text : String} {p : Program} (accepted : read text = .ok p) :
    p.Printable := by
  refine ⟨?_, fun f member => ?_⟩
  · obtain ⟨⟨tree, -⟩, rfl⟩ := read_eq_ok_iff.mp accepted
    rw [declared, Ne, List.map_eq_nil_iff]
    exact eraseDupsBy_ne_nil tree.definitions_ne_nil
  · obtain ⟨tree, formed, rfl⟩ := exists_tree_of_read accepted member
    obtain ⟨name, formals, body⟩ := tree.formed formed
    rw [function_eq]
    refine ⟨isWord_written name, fun x inside => ?_, tree.body.printable body⟩
    obtain ⟨y, once, rfl⟩ := List.mem_map.mp inside
    exact formals y (List.mem_eraseDups.mp once)

end Program

/-! What is left of a printable program is printable where a function is left. -/

variable {kept : String → Bool}

/-- What an inaction and all that is left of each statement have in common holds of what is left of
a block. -/
theorem Block.forall_mem_prune {P : Statement → Prop} {b : Block} (tau : P .tau)
    (members : ∀ s ∈ b, ∀ u, s.prune kept = some u → P u) : ∀ u ∈ Block.prune kept b, P u := by
  rw [Block.prune, Block.pruneEach_eq_filterMap, Block.orIdle]
  split
  · intro u member
    rw [List.mem_singleton.mp member]
    exact tau
  · intro u member
    obtain ⟨s, inside, left⟩ := List.mem_filterMap.mp member
    exact members s inside u left

theorem Statement.Printable.prune {s u : Statement} (printable : s.Printable)
    (left : s.prune kept = some u) : u.Printable := by
  induction printable generalizing u with
  | tau =>
    cases left
    exact .tau
  | act a =>
    cases left
    exact .act a
  | invoke m name arguments =>
    rw [Statement.prune, Option.ite_none_right_eq_some] at left
    obtain ⟨-, same⟩ := left
    cases same
    exact .invoke m name arguments
  | branch _ _ _ _ ht he =>
    have thenBody := Block.forall_mem_prune .tau fun s member u left => ht s member left
    have elseBody := Block.forall_mem_prune .tau fun s member u left => he s member left
    rw [Statement.prune] at left
    split at left
    · cases left
      exact .tau
    · cases left
      exact .branch (Block.prune_ne_nil _ _) (Block.prune_ne_nil _ _) thenBody elseBody
  | select _ _ hcs =>
    rw [Statement.prune, Statement.pruneCases_eq_map] at left
    cases left
    refine .select ?_ ?_
    · intro b member
      obtain ⟨c, -, rfl⟩ := List.mem_map.mp member
      exact Block.prune_ne_nil _ _
    · intro b member
      obtain ⟨c, inside, rfl⟩ := List.mem_map.mp member
      exact Block.forall_mem_prune .tau fun s member u left => hcs c inside s member left

namespace Program

variable {p : Program}

theorem mem_functions_shrink {f : Function} (member : f ∈ p.shrink.functions) :
    ∃ g ∈ p.functions, ∃ kept, f = g.withBody (Block.prune kept g.body) := by
  rw [shrink] at member
  split at member
  · obtain ⟨g, inside, rfl⟩ := List.mem_map.mp member
    have before := (sublist_functions_without _ _).subset inside
    exact ⟨g, (sublist_functions_without _ _).subset before, _, rfl⟩
  · obtain ⟨g, inside, rfl⟩ := List.mem_map.mp member
    exact ⟨g, (sublist_functions_without _ _).subset inside, _, rfl⟩

theorem printable_shrink (printable : p.Printable) :
    p.shrink.Printable ↔ p.shrink.functions ≠ [] := by
  refine ⟨fun shrunk => shrunk.nonempty, fun nonempty => ⟨nonempty, fun f member => ?_⟩⟩
  obtain ⟨g, inside, kept, rfl⟩ := mem_functions_shrink member
  obtain ⟨name, formals, body⟩ := printable.functions g inside
  have left : ∀ u ∈ Block.prune kept g.body, u.Printable :=
    Block.forall_mem_prune .tau fun s member u left => (body s member).prune left
  exact ⟨name, formals, left⟩

end Program
end ProcessCalculus
