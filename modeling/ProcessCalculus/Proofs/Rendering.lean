import Mathlib.Data.List.Induction
import ProcessCalculus.Proofs.Printable

/-!
The text of a printable statement spells the tokens of a derivation tree for what the text stands
for. Every piece of a text either ends outside a word or is followed by a piece that starts outside
one, so the pieces spell their tokens one after the other.
-/
namespace ProcessCalculus

open Token (IsWord startsWord endsWord spelled)
open Grammar

/-- A text without dashes, of these tokens. -/
structure Spells (text : String) (ts : List Token) : Prop where
  plain : '-' ∉ text.toList
  tokens : spelled text.toList = ts

variable {a b x : String} {ts us : List Token}

theorem Spells.append (first : Spells a ts) (second : Spells b us)
    (apart : endsWord a.toList = false ∨ startsWord b.toList = false) :
    Spells (a ++ b) (ts ++ us) := by
  refine ⟨?_, ?_⟩
  · rw [String.toList_append, List.mem_append]
    exact fun member => member.elim first.plain second.plain
  · rw [String.toList_append, Token.spelled_append first.plain apart, first.tokens, second.tokens]

/-- A piece of fixed text, checked by evaluation. -/
theorem spells_fixed (plain : a.toList.contains '-' = false) (tokens : spelled a.toList = ts) :
    Spells a ts :=
  ⟨by simpa using plain, tokens⟩

theorem not_startsWord_append {c : Char} {cs : List Char} (first : a.toList = c :: cs)
    (outside : Token.isWordChar c = false) : startsWord (a ++ b).toList = false := by
  rw [String.toList_append, first]
  exact outside

theorem not_endsWord_append {c : Char} (last : b.toList.getLast? = some c)
    (outside : Token.isWordChar c = false) : endsWord (a ++ b).toList = false := by
  rw [String.toList_append, endsWord, List.getLast?_append, last]
  exact outside

theorem not_dash_of_chars {cs : List Char} (chars : ∀ c ∈ cs, Token.isWordChar c = true) :
    '-' ∉ cs :=
  fun member => absurd (chars '-' member) (by decide)

theorem spells_word (word : IsWord x) : Spells x [.identifier x] := by
  refine ⟨not_dash_of_chars word.chars, ?_⟩
  rw [Token.spelled_of_all word.nonempty word.chars, Token.ofWord_of_isWord word]

theorem spells_number {n : Int64} (nonneg : 0 ≤ n.toInt) :
    Spells (toString n.toInt) [.number n] := by
  obtain ⟨chars, spelling⟩ := Token.spelled_number nonneg
  exact ⟨not_dash_of_chars chars, spelling⟩

theorem spells_keyword (k : Keyword) : Spells k.text [.keyword k] :=
  ⟨not_dash_of_chars (Token.chars_keyword k).2, Token.spelled_keyword k⟩

/-- A blank between two texts keeps them apart. -/
theorem Spells.blank (first : Spells a ts) (second : Spells b us) :
    Spells (a ++ " " ++ b) (ts ++ us) := by
  have seam : Spells (a ++ " ") ts := by
    have empty : Spells " " [] := spells_fixed rfl (by decide +kernel)
    have together := first.append empty (.inr rfl)
    rwa [List.append_nil] at together
  exact seam.append second (.inl (not_endsWord_append rfl rfl))

/-! Actions. -/

/-- What the text of an action ends in, behind its name. -/
def Operation.ending : Operation → String
  | .newMutex => " mutex"
  | .newRWMutex => " rwmutex"
  | _ => ""

theorem Operation.render_eq (o : Operation) (x : String) :
    o.render x = o.word.text ++ " " ++ o.shown x ++ o.ending := by
  cases o <;> simp [render, word, Keyword.text, shown, ending]

theorem Operation.spells_ending (o : Operation) :
    Spells o.ending o.kind ∧ startsWord o.ending.toList = false := by
  cases o with
  | newMutex => exact ⟨spells_fixed rfl (by decide +kernel), rfl⟩
  | newRWMutex => exact ⟨spells_fixed rfl (by decide +kernel), rfl⟩
  | _ => exact ⟨spells_fixed rfl Token.spelled_nil, rfl⟩

theorem Action.spells {a : Action} (printable : a.Printable) :
    Spells a.render a.canonical.tokens := by
  cases a with
  | newChannel name label n =>
    obtain ⟨nameWord, labelWord, nonneg⟩ := printable
    have equals : Spells " = newchan " [.mark .equals, .keyword .newChannel] :=
      spells_fixed rfl (by decide +kernel)
    have comma : Spells ", " [.mark .comma] := spells_fixed rfl (by decide +kernel)
    have text : (Action.newChannel name label n).render = Keyword.bind.text ++ " " ++ (name ++
        (" = newchan " ++ (Name.written label ++ (", " ++ toString n.toInt)))) := by
      simp [render, Keyword.text, ← String.append_assoc]
    rw [text]
    have capacity := comma.append (spells_number nonneg) (.inl rfl)
    have labels := (spells_word labelWord).append capacity (.inr (not_startsWord_append rfl rfl))
    have channel := equals.append labels (.inl rfl)
    have names := (spells_word nameWord).append channel (.inr (not_startsWord_append rfl rfl))
    exact (spells_keyword .bind).blank names
  | perform o x =>
    obtain ⟨ending, outside⟩ := o.spells_ending
    change Spells (o.render x) _
    rw [Operation.render_eq, String.append_assoc]
    exact (spells_keyword o.word).blank ((spells_word printable).append ending (.inr outside))

/-! Lists of names. -/

theorem spells_names {xs : List String} (nonempty : xs ≠ []) (words : ∀ y ∈ xs, IsWord y) :
    ∃ tree : NameTree, tree.names = xs ∧ Spells (", ".intercalate xs) tree.tokens := by
  induction xs using List.reverseRecOn with
  | nil => contradiction
  | append_singleton xs x ih =>
    obtain ⟨before, last⟩ := List.forall_mem_append.mp words
    have word : IsWord x := last x List.mem_cons_self
    by_cases first : xs = []
    · refine ⟨.one x, by rw [first]; rfl, ?_⟩
      rw [first, List.nil_append, String.intercalate_singleton]
      exact spells_word word
    · obtain ⟨tree, names, spells⟩ := ih first before
      have comma : Spells ", " [.mark .comma] := spells_fixed rfl (by decide +kernel)
      refine ⟨.more tree x, by rw [NameTree.names, names], ?_⟩
      rw [String.intercalate_append_of_ne_nil first (List.cons_ne_nil x []),
        String.intercalate_singleton, String.append_assoc]
      exact spells.append (comma.append (spells_word word) (.inl rfl))
        (.inr (not_startsWord_append rfl rfl))

/-- A list of names in brackets, up to an ending that starts with the closing one. -/
theorem spells_parameters {xs : List String} (words : ∀ y ∈ xs, IsWord y)
    (closes : Spells a (.mark .closing :: ts)) (outside : startsWord a.toList = false) :
    ∃ tree : ParameterTree, tree.names = xs ∧
      Spells ("(" ++ (", ".intercalate xs ++ a)) (tree.tokens ++ ts) := by
  have opening : Spells "(" [.mark .opening] := spells_fixed rfl (by decide +kernel)
  by_cases none : xs = []
  · refine ⟨.none, none.symm, ?_⟩
    rw [none, String.intercalate_nil, String.empty_append]
    exact opening.append closes (.inl rfl)
  · obtain ⟨tree, names, spells⟩ := spells_names none words
    refine ⟨.some tree, names, ?_⟩
    rw [ParameterTree.tokens, List.append_assoc]
    exact opening.append (spells.append closes (.inr outside)) (.inl rfl)

/-! Blocks, in the three layouts of branches, cases and bodies. -/

/-- What stands before each statement of a block, and what closes it. -/
structure Layout (lead trail : String) : Prop where
  opens : Spells lead []
  apart : endsWord lead.toList = false
  closes : Spells trail [.mark .semicolon]
  outside : startsWord trail.toList = false
  shut : ∀ before : String, endsWord (before ++ trail).toList = false

theorem inlineLayout : Layout "" "; " :=
  ⟨spells_fixed rfl (by decide +kernel), rfl, spells_fixed rfl (by decide +kernel), rfl,
    fun _ => not_endsWord_append rfl rfl⟩

theorem caseLayout : Layout " " ";" :=
  ⟨spells_fixed rfl (by decide +kernel), rfl, spells_fixed rfl (by decide +kernel), rfl,
    fun _ => not_endsWord_append rfl rfl⟩

theorem lineLayout : Layout "    " ";\n" :=
  ⟨spells_fixed rfl (by decide +kernel), rfl, spells_fixed rfl (by decide +kernel), rfl,
    fun _ => not_endsWord_append rfl rfl⟩

def Block.laid (lead trail : String) (block : Block) : String :=
  String.join (block.map fun s => lead ++ s.render ++ trail)

theorem Block.laid_concat (lead trail : String) (block : Block) (s : Statement) :
    Block.laid lead trail (block ++ [s]) =
      Block.laid lead trail block ++ (lead ++ s.render ++ trail) := by
  simp only [laid, List.map_append, String.join_append, List.map_cons, List.map_nil,
    String.join_cons, String.join_nil, String.append_empty]

theorem Block.renderInline_eq (block : Block) :
    Block.renderInline block = Block.laid "" "; " block := by
  induction block with
  | nil => rfl
  | cons s block ih =>
    rw [renderInline, ih, laid, laid, List.map_cons, String.join_cons, String.empty_append]

theorem Block.renderCase_eq (block : Block) :
    Block.renderCase block = Block.laid " " ";" block := by
  induction block with
  | nil => rfl
  | cons s block ih => rw [renderCase, ih, laid, laid, List.map_cons, String.join_cons]

/-- Some tree of what the statement stands for derives the tokens of its text. -/
def Statement.Written (s : Statement) : Prop :=
  ∃ tree : StatementTree, tree.statement = s.canonical ∧ Spells s.render tree.tokens

theorem Layout.spells_block {lead trail : String} (layout : Layout lead trail) {block : Block}
    (nonempty : block ≠ []) (members : ∀ s ∈ block, s.Written) :
    ∃ tree : BlockTree, tree.block = Block.canonical block ∧
      Spells (Block.laid lead trail block) tree.tokens ∧
      ∀ before, endsWord (before ++ Block.laid lead trail block).toList = false := by
  rw [Block.canonical_eq_map]
  induction block using List.reverseRecOn with
  | nil => contradiction
  | append_singleton block s ih =>
    obtain ⟨before, last⟩ := List.forall_mem_append.mp members
    obtain ⟨tree, statement, spells⟩ := last s List.mem_cons_self
    have piece : Spells (lead ++ s.render ++ trail) (tree.tokens ++ [.mark .semicolon]) :=
      (layout.opens.append spells (.inl layout.apart)).append layout.closes (.inr layout.outside)
    have shut : ∀ before,
        endsWord (before ++ Block.laid lead trail (block ++ [s])).toList = false := by
      intro before
      rw [Block.laid_concat, ← String.append_assoc, ← String.append_assoc]
      exact layout.shut _
    by_cases first : block = []
    · refine ⟨.one tree, ?_, ?_, shut⟩
      · rw [first, BlockTree.block, statement]
        rfl
      · rw [first, Block.laid_concat, Block.laid, List.map_nil, String.join_nil,
          String.empty_append]
        exact piece
    · obtain ⟨earlier, blocks, spelled, ended⟩ := ih first before
      refine ⟨.more earlier tree, ?_, ?_, shut⟩
      · rw [BlockTree.block, blocks, statement, List.map_append]
        rfl
      · rw [Block.laid_concat]
        exact spelled.append piece (.inl (ended ""))

/-! Cases and statements. -/

theorem startsWord_renderCase {block : Block} (nonempty : block ≠ []) :
    startsWord (Block.renderCase block).toList = false := by
  cases block with
  | nil => contradiction
  | cons s block =>
    rw [Block.renderCase, String.append_assoc, String.append_assoc]
    exact not_startsWord_append rfl rfl

theorem startsWord_renderCases (cs : List Block) :
    startsWord (Statement.renderCases cs).toList = false := by
  cases cs with
  | nil => rfl
  | cons b cs =>
    rw [Statement.renderCases, String.append_assoc]
    exact not_startsWord_append rfl rfl

theorem renderCases_concat (cs : List Block) (b : Block) :
    Statement.renderCases (cs ++ [b]) =
      Statement.renderCases cs ++ ("\n      case" ++ Block.renderCase b) := by
  induction cs with
  | nil => simp [Statement.renderCases]
  | cons c cs ih =>
    rw [List.cons_append, Statement.renderCases, ih, Statement.renderCases, String.append_assoc,
      String.append_assoc, String.append_assoc]

theorem spells_cases {cs : List Block} (nonempty : ∀ b ∈ cs, b ≠ [])
    (members : ∀ b ∈ cs, ∀ s ∈ b, s.Written) :
    ∃ tree : CaseTree, tree.blocks = cs.map Block.canonical ∧
      Spells (Statement.renderCases cs) tree.tokens ∧
      endsWord (Statement.renderCases cs).toList = false := by
  induction cs using List.reverseRecOn with
  | nil => exact ⟨.none, rfl, spells_fixed rfl Token.spelled_nil, rfl⟩
  | append_singleton cs b ih =>
    obtain ⟨nonemptyBefore, nonemptyLast⟩ := List.forall_mem_append.mp nonempty
    obtain ⟨before, last⟩ := List.forall_mem_append.mp members
    have filled : b ≠ [] := nonemptyLast b List.mem_cons_self
    obtain ⟨earlier, blocks, spelled, ended⟩ := ih nonemptyBefore before
    obtain ⟨tree, block, spells, shut⟩ := caseLayout.spells_block filled (last b List.mem_cons_self)
    rw [← Block.renderCase_eq] at spells shut
    have opening : Spells "\n      case" [.keyword .case] := spells_fixed rfl (by decide +kernel)
    have piece := opening.append spells (.inr (startsWord_renderCase filled))
    refine ⟨.more earlier tree, ?_, ?_, ?_⟩
    · rw [CaseTree.blocks, blocks, block, List.map_append]
      rfl
    · rw [renderCases_concat]
      exact spelled.append piece (.inl ended)
    · rw [renderCases_concat, ← String.append_assoc]
      exact shut _

theorem Statement.Printable.written {s : Statement} (printable : s.Printable) : s.Written := by
  induction printable with
  | tau => exact ⟨.tau, rfl, spells_keyword .tau⟩
  | @act a printable => exact ⟨.act a.canonical, rfl, Action.spells printable⟩
  | @invoke m f xs name arguments =>
    have words : ∀ y ∈ Parameter.actuals xs, IsWord y := by
      intro y member
      obtain ⟨x, inside, rfl⟩ := List.mem_map.mp member
      exact arguments x inside
    have closing : Spells ")" [.mark .closing] := spells_fixed rfl (by decide +kernel)
    obtain ⟨tree, names, spells⟩ := spells_parameters words closing rfl
    rw [List.append_nil] at spells
    have mode : m.render = m.word.text := by
      cases m <;> rfl
    refine ⟨.invoke m (Name.written f) tree, ?_, ?_⟩
    · rw [StatementTree.statement, names, canonical]
    · rw [Statement.render, mode, String.append_assoc, String.append_assoc]
      exact ((spells_keyword m.word).blank (spells_word name)).append spells
        (.inr (not_startsWord_append rfl rfl))
  | @branch t e someThen someElse _ _ ht he =>
    obtain ⟨thenTree, thenBlock, thenSpells, thenShut⟩ := inlineLayout.spells_block someThen ht
    obtain ⟨elseTree, elseBlock, elseSpells, elseShut⟩ := inlineLayout.spells_block someElse he
    rw [← Block.renderInline_eq] at thenSpells thenShut elseSpells elseShut
    refine ⟨.branch thenTree elseTree, ?_, ?_⟩
    · rw [StatementTree.statement, thenBlock, elseBlock, canonical]
    · rw [Statement.render, Statement.opening]
      have opening : Spells "if " [.keyword .cond] := spells_fixed rfl (by decide +kernel)
      have middle : Spells "else " [.keyword .otherwise] := spells_fixed rfl (by decide +kernel)
      have thenPart := (opening.append thenSpells (.inl rfl)).append middle
        (.inl (thenShut "if "))
      have elsePart := (thenPart.append elseSpells (.inl (not_endsWord_append rfl rfl))).append
        (spells_keyword .endIf) (.inl (elseShut _))
      simpa [StatementTree.tokens, Keyword.text] using elsePart
  | @select cs someCases _ hcs =>
    obtain ⟨tree, blocks, spells, shut⟩ := spells_cases someCases hcs
    refine ⟨.select tree, ?_, ?_⟩
    · rw [StatementTree.statement, blocks, canonical, canonicalCases_eq_map]
    · rw [Statement.render]
      have closing : Spells "\n    endselect" [.keyword .endSelect] :=
        spells_fixed rfl (by decide +kernel)
      have first := (spells_keyword .select).append spells (.inr (startsWord_renderCases cs))
      exact first.append closing (.inr rfl)

/-! Functions and programs. -/

theorem Block.renderLines_eq (block : Block) :
    Block.renderLines block = Block.laid "    " ";\n" block := rfl

theorem Function.Printable.spells {f : Function} (printable : f.Printable) :
    ∃ tree : DefinitionTree, tree.definition = f.definition ∧ Spells f.render tree.tokens ∧
      ∀ before, endsWord (before ++ f.render).toList = false := by
  have words : ∀ y ∈ Parameter.formals f.parameters, IsWord y := by
    intro y member
    obtain ⟨x, inside, rfl⟩ := List.mem_map.mp member
    exact printable.formals x inside
  obtain ⟨block, written, nonempty, same⟩ : ∃ block : Block, (∀ s ∈ block, s.Written) ∧ block ≠ [] ∧
      (if f.body = [] then [.tau] else f.body) = block := by
    refine ⟨_, ?_, ?_, rfl⟩
    · intro s member
      split at member
      · rw [List.mem_singleton.mp member]
        exact Statement.Printable.tau.written
      · exact (printable.body s member).written
    · split
      · exact List.cons_ne_nil _ _
      · assumption
  have canonical : Block.canonical block = f.definition.body := by
    rw [← same, Function.definition, Block.orIdle, Block.canonical_eq_map, Block.canonical_eq_map]
    by_cases empty : f.body = []
    · rw [if_pos empty, empty]
      rfl
    · rw [if_neg empty, if_neg (by simpa using empty)]
  obtain ⟨body, stands, spells, shut⟩ := lineLayout.spells_block nonempty written
  rw [← Block.renderLines_eq] at spells shut
  have closing : Spells "):\n" [.mark .closing, .mark .colon] :=
    spells_fixed rfl (by decide +kernel)
  have behind := closing.append spells (.inl rfl)
  obtain ⟨parameters, names, front⟩ := spells_parameters words behind
    (not_startsWord_append rfl rfl)
  have text : f.render = Keyword.define.text ++ " " ++ f.writtenName ++
      ("(" ++ (", ".intercalate (Parameter.formals f.parameters) ++
        ("):\n" ++ Block.renderLines block))) := by
    rw [Function.render, same]
    simp [Keyword.text, ← String.append_assoc]
  refine ⟨⟨f.writtenName, parameters, body⟩, ?_, ?_, ?_⟩
  · rw [DefinitionTree.definition, names, stands, canonical]
    rfl
  · rw [text]
    have name := (spells_keyword .define).blank (spells_word printable.name)
    have whole := name.append front (.inr (not_startsWord_append rfl rfl))
    simpa [DefinitionTree.tokens] using whole
  · intro before
    rw [Function.render, same, ← String.append_assoc]
    exact shut _

theorem Program.spells {functions : List Function} (nonempty : functions ≠ [])
    (printable : ∀ f ∈ functions, f.Printable) :
    ∃ tree : ProgramTree, tree.definitions = functions.map Function.definition ∧
      Spells (String.join (functions.map Function.render)) tree.tokens ∧
      endsWord (String.join (functions.map Function.render)).toList = false := by
  induction functions using List.reverseRecOn with
  | nil => contradiction
  | append_singleton functions f ih =>
    obtain ⟨before, last⟩ := List.forall_mem_append.mp printable
    obtain ⟨tree, definition, spells, shut⟩ := (last f List.mem_cons_self).spells
    have text : String.join ((functions ++ [f]).map Function.render) =
        String.join (functions.map Function.render) ++ f.render := by
      simp only [List.map_append, String.join_append, List.map_cons, List.map_nil,
        String.join_cons, String.join_nil, String.append_empty]
    by_cases first : functions = []
    · refine ⟨.one tree, ?_, ?_, ?_⟩
      · rw [first, ProgramTree.definitions, definition]
        rfl
      · rw [text, first, List.map_nil, String.join_nil, String.empty_append]
        exact spells
      · rw [text]
        exact shut _
    · obtain ⟨earlier, definitions, spelled, ended⟩ := ih first before
      refine ⟨.more earlier tree, ?_, ?_, ?_⟩
      · rw [ProgramTree.definitions, definitions, definition, List.map_append]
        rfl
      · rw [text]
        exact spelled.append spells (.inl ended)
      · rw [text]
        exact shut _

end ProcessCalculus
