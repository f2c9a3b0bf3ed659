import ProcessCalculus.Proofs.Refusal

/-!
Texts that follow one another, with a newline between them. The newline ends a word and a comment,
so the two texts have the tokens that each has alone. Two programs then declare what the first
declares and what the second adds to it, and a text that is refused at one of its tokens is refused
there whatever follows.
-/
namespace ProcessCalculus

/-! A newline keeps apart what is scanned before it and after it. -/

section Newline

variable {p : Char → Bool} (stops : p '\n' = false)
include stops

theorem takeWhile_append_newline (cs ds : List Char) :
    (cs ++ '\n' :: ds).takeWhile p = cs.takeWhile p := by
  induction cs with
  | nil => exact List.takeWhile_cons_of_neg (by simp [stops])
  | cons c cs ih => rw [List.cons_append, List.takeWhile_cons, List.takeWhile_cons, ih]

theorem dropWhile_append_newline (cs ds : List Char) :
    (cs ++ '\n' :: ds).dropWhile p = cs.dropWhile p ++ '\n' :: ds := by
  induction cs with
  | nil => exact List.dropWhile_cons_of_neg (by simp [stops])
  | cons c cs ih =>
    rw [List.cons_append, List.dropWhile_cons, List.dropWhile_cons, ih]
    split <;> rfl

end Newline

namespace Token

/-- A dash at the end of a line starts no comment with what stands on the next. -/
theorem startsComment_append_newline (c : Char) (cs ds : List Char) :
    startsComment (c :: cs ++ '\n' :: ds) = startsComment (c :: cs) := by
  cases cs with
  | nil =>
    rw [Bool.eq_iff_iff]
    simp [startsComment]
  | cons d cs =>
    by_cases dashes : c = '-' ∧ d = '-'
    · obtain ⟨rfl, rfl⟩ := dashes
      rfl
    · unfold startsComment
      split <;> split <;> simp_all

theorem scan_append_newline (offset : Nat) (cs ds : List Char) :
    scan offset (cs ++ '\n' :: ds) =
      scan offset cs ++ scan (offset + Text.byteLength cs + 1) ds := by
  -- the second line starts as far behind what is read first as behind the rest of the first
  have behind (first rest : List Char) (offset : Nat) :
      offset + Text.byteLength (first ++ rest) + 1 =
        offset + Text.byteLength first + Text.byteLength rest + 1 := by
    rw [Text.byteLength_append, ← Nat.add_assoc]
  fun_induction scan offset cs with
  | case1 offset =>
    rw [List.nil_append, List.nil_append, scan, if_pos (by decide)]
    rfl
  | case2 offset c rest blank ih =>
    have split : offset + Text.byteLength (c :: rest) + 1 = _ := behind [c] rest offset
    rw [List.cons_append, scan, if_pos blank, ih, split]
    rfl
  | case3 offset c rest blank comment ih =>
    have split := behind (c :: rest.takeWhile (· ≠ '\n')) (rest.dropWhile (· ≠ '\n')) offset
    rw [List.cons_append, List.takeWhile_append_dropWhile] at split
    rw [List.cons_append, scan, if_neg blank, ← List.cons_append, startsComment_append_newline,
      if_pos comment, takeWhile_append_newline (by decide), dropWhile_append_newline (by decide),
      ih, split]
  | case4 offset c rest blank comment wordChar word stop ih =>
    have split := behind word (rest.dropWhile isWordChar) offset
    rw [List.cons_append, List.takeWhile_append_dropWhile] at split
    rw [List.cons_append, scan, if_neg blank, ← List.cons_append, startsComment_append_newline,
      if_neg comment, if_pos wordChar, takeWhile_append_newline (by decide),
      dropWhile_append_newline (by decide), split, List.cons_append, ← ih]
  | case5 offset c rest blank comment wordChar stop ih =>
    have split : offset + Text.byteLength (c :: rest) + 1 = stop + Text.byteLength rest + 1 :=
      behind [c] rest offset
    rw [List.cons_append, scan, if_neg blank, ← List.cons_append, startsComment_append_newline,
      if_neg comment, if_neg wordChar, split, List.cons_append, ← ih]

/-- The second text stands behind the bytes of the first and the newline. -/
theorem scanText_append_newline (s t : String) : scanText (s ++ "\n" ++ t) =
    scanText s ++ (scanText t).map (·.shift (s.utf8ByteSize + 1)) := by
  have line : (s ++ "\n" ++ t).toList = s.toList ++ '\n' :: t.toList := by
    simp [String.toList_append]
  rw [scanText, scanText, scanText, line, scan_append_newline, ← scan_shift, utf8ByteSize_eq,
    Nat.add_assoc]

/-- The lexer finds the tokens of the first text, and behind them those of the second. -/
theorem lex?_append_newline (s t : String) : ∃ us vs, lex? s = some us ∧ lex? t = some vs ∧
    lex? (s ++ "\n" ++ t) = some (us ++ vs.map (·.shift (s.utf8ByteSize + 1))) :=
  ⟨_, _, lex?_eq s, lex?_eq t, (lex?_eq _).trans (congrArg some (scanText_append_newline s t))⟩

end Token

/-! Definitions. -/

namespace Grammar

/-- The tree of the definitions of two programs. -/
def ProgramTree.append (p : ProgramTree) : ProgramTree → ProgramTree
  | .one d => .more p d
  | .more before d => .more (p.append before) d

theorem ProgramTree.tokens_append (p q : ProgramTree) :
    (p.append q).tokens = p.tokens ++ q.tokens := by
  induction q with
  | one d => rfl
  | more before d ih => rw [append, tokens, tokens, ih, List.append_assoc]

theorem ProgramTree.definitions_append (p q : ProgramTree) :
    (p.append q).definitions = p.definitions ++ q.definitions := by
  induction q with
  | one d => rfl
  | more before d ih => rw [append, definitions, definitions, ih, List.append_assoc]

/-- The machine stops at the same token, whatever follows it. -/
theorem State.advance_append {α : Type} {token : α → Token} {s last : State} {items after : List α}
    {k : α} (stops : s.advance token items = (last, k :: after)) (more : List α) :
    s.advance token (items ++ more) = (last, k :: (after ++ more)) := by
  induction items generalizing s with
  | nil => simp [advance] at stops
  | cons i items ih =>
    rw [advance] at stops
    rw [List.cons_append, advance]
    split at stops
    · exact ih stops
    · cases stops
      rfl

end Grammar

/-- Where a token of a text ends does not depend on what follows the text. -/
theorem Position.ofOffset_append {s : String} {t : Located} (member : t ∈ Token.scanText s)
    (u : String) : ofOffset (s ++ u) t.span.stop = ofOffset s t.span.stop := by
  obtain ⟨before, rest, split, stop⟩ := Token.stop_of_scan 0 s.toList t member
  have longer : (s ++ u).toList = before ++ (rest ++ u.toList) := by
    rw [String.toList_append, split, List.append_assoc]
  rw [stop, Nat.zero_add, ofOffset_of_split split, ofOffset_of_split longer]

namespace Program

theorem readDefinitions_append {s t : String} {ds es : List Definition}
    (first : readDefinitions s = .ok ds) (second : readDefinitions t = .ok es) :
    readDefinitions (s ++ "\n" ++ t) = .ok (ds ++ es) := by
  obtain ⟨⟨p, spells⟩, rfl⟩ := readDefinitions_eq_ok_iff.mp first
  obtain ⟨⟨q, spells'⟩, rfl⟩ := readDefinitions_eq_ok_iff.mp second
  refine readDefinitions_eq_ok_iff.mpr ⟨⟨p.append q, ?_⟩, p.definitions_append q⟩
  rw [p.tokens_append, spells, spells', Token.scanText_append_newline, List.map_append,
    List.map_map]
  rfl

/-- Declaring what a list declares is declaring the list: what it repeats is taken already. -/
theorem foldl_add_ofFunctions (p : Program) (fs : List Function) :
    (ofFunctions fs).functions.foldl add p = fs.foldl add p := by
  induction fs using List.reverseRecOn with
  | nil => rfl
  | append_singleton fs f ih =>
    have last : ofFunctions (fs ++ [f]) = (ofFunctions fs).add f := by
      rw [ofFunctions, List.foldl_append, ← ofFunctions]
      rfl
    rw [last, List.foldl_append]
    by_cases taken : f.name ∈ (ofFunctions fs).names
    · -- the name was declared from the list before, so it is taken behind `p` as well
      have later : f.name ∈ (fs.foldl add p).names := by
        rcases mem_names_foldl_add.mp taken with none | inside
        · exact absurd none List.not_mem_nil
        · exact mem_names_foldl_add.mpr (.inr inside)
      rw [add_of_mem taken, ih]
      exact (add_of_mem later).symm
    · rw [add_of_not_mem taken, List.foldl_append, ih]

theorem read_append {s t : String} {p q : Program} (first : read s = .ok p)
    (second : read t = .ok q) : read (s ++ "\n" ++ t) = .ok (q.functions.foldl add p) := by
  obtain ⟨ds, definitions, rfl⟩ := read_eq_ok_iff_definitions.mp first
  obtain ⟨es, definitions', rfl⟩ := read_eq_ok_iff_definitions.mp second
  have together := readDefinitions_append definitions definitions'
  refine read_eq_ok_iff_definitions.mpr ⟨ds ++ es, together, ?_⟩
  rw [ofDefinitions, ofDefinitions, ofDefinitions, foldl_add_ofFunctions, List.map_append,
    ofFunctions, List.foldl_append]
  rfl

/-- A text refused at a token, and not at its end, is refused in the same way whatever follows. -/
theorem readDefinitions_append_error {s : String} {e : SyntaxError}
    (refused : readDefinitions s = .error e) (token : e.span.start ≠ e.span.stop) (t : String) :
    readDefinitions (s ++ "\n" ++ t) = .error e := by
  rw [readDefinitions] at refused
  split at refused
  · -- all tokens are read: no error, or one at the end of the text
    split at refused
    · contradiction
    · cases refused
      contradiction
  · next state k after stops =>
    cases refused
    obtain ⟨before, scanned, -, -⟩ := Grammar.State.advance_stops stops
    have member : k ∈ Token.scanText s := by
      rw [scanned]
      exact List.mem_append_right _ List.mem_cons_self
    rw [readDefinitions, Token.scanText_append_newline, Grammar.State.advance_append stops]
    simp only [String.append_assoc, Position.ofOffset_append member]

/-- The tokens of two texts with a newline between them are those of each, for the lexer as for the
scan that it agrees with. So two programs declare together what the second adds to the first, and a
text refused at a token is refused there whatever follows. -/
theorem readWith_append_newline :
    (∀ s t, Token.scanText (s ++ "\n" ++ t) =
      Token.scanText s ++ (Token.scanText t).map (·.shift (s.utf8ByteSize + 1))) ∧
    (∀ s t, ∃ us vs, Token.lex? s = some us ∧ Token.lex? t = some vs ∧
      Token.lex? (s ++ "\n" ++ t) = some (us ++ vs.map (·.shift (s.utf8ByteSize + 1)))) ∧
    (∀ verbose s t p q, readWith verbose s = .ok p → readWith verbose t = .ok q →
      readWith verbose (s ++ "\n" ++ t) = .ok (q.functions.foldl add p)) ∧
    ∀ verbose s t c, readWith verbose s = .error c → c.span.start ≠ c.span.stop →
      readWith verbose (s ++ "\n" ++ t) = .error c := by
  refine ⟨Token.scanText_append_newline, Token.lex?_append_newline,
    fun verbose s t p q first second => ?_, fun verbose s t c refused token => ?_⟩
  · rw [readWith_eq_ok_iff] at first second ⊢
    exact read_append first second
  · obtain ⟨e, definitions, rfl⟩ := readWith_error refused
    exact readWith_of_error (readDefinitions_append_error definitions token t)

/-- A text that ends in a comment. -/
def remarked : String := "def a(): tau; -- idle"

/-- A text that defines another function of the same name. -/
def sequel : String := "def a(): send x; def b(): close y;"

theorem readWith_append_newline_sequel :
    Token.scanText (remarked ++ "\n" ++ sequel) =
      Token.scanText remarked ++ (Token.scanText sequel).map (·.shift 22) ∧
    (∃ us vs, Token.lex? remarked = some us ∧ Token.lex? sequel = some vs ∧
      Token.lex? (remarked ++ "\n" ++ sequel) = some (us ++ vs.map (·.shift 22))) ∧
    (∃ p q, readWith true remarked = .ok p ∧ readWith true sequel = .ok q ∧
      readWith true (remarked ++ "\n" ++ sequel) = .ok (q.functions.foldl add p) ∧
      p.names = ["a"] ∧ q.names = ["a", "b"] ∧ (q.functions.foldl add p).names = ["a", "b"]) ∧
    readWith true "def a(): send;" = .error ⟨⟨13, 14⟩, ⟨1, 14⟩,
      "syntax error: unexpected ';', expecting identifier"⟩ ∧
    readWith true ("def a(): send;" ++ "\n" ++ sequel) = .error ⟨⟨13, 14⟩, ⟨1, 14⟩,
      "syntax error: unexpected ';', expecting identifier"⟩ := by
  have first : readWith true remarked = .ok (ofDefinitions [⟨"a", [], [.tau]⟩]) := by
    decide +kernel
  have second : readWith true sequel = .ok (ofDefinitions
      [⟨"a", [], [.act (.perform .send "x")]⟩, ⟨"b", [], [.act (.perform .close "y")]⟩]) := by
    decide +kernel
  have refused : readWith true "def a(): send;" = .error ⟨⟨13, 14⟩, ⟨1, 14⟩,
      "syntax error: unexpected ';', expecting identifier"⟩ := by decide +kernel
  obtain ⟨tokens, lexed, programs, refusals⟩ := readWith_append_newline
  exact ⟨tokens remarked sequel, lexed remarked sequel,
    ⟨_, _, first, second, programs true _ _ _ _ first second, by decide +kernel, by decide +kernel,
      by decide +kernel⟩,
    refused, refusals true _ sequel _ refused (by decide)⟩

end Program
end ProcessCalculus
