import Mathlib.Data.List.DropRight
import ProcessCalculus.LineIndex

/-!
Positions count the newlines before an offset and the characters behind the last of them. Looking an
offset up among the starts of the lines finds the same position as reading the text up to there, and
later offsets have later positions.
-/
namespace ProcessCalculus

/-! Pieces of a text. -/

theorem utf8ByteSize_ofList (cs : List Char) :
    (String.ofList cs).utf8ByteSize = Text.byteLength cs := by
  induction cs with
  | nil => rfl
  | cons c cs ih =>
    rw [String.ofList_cons, String.utf8ByteSize_append, String.utf8ByteSize_singleton, ih,
      Text.byteLength_cons]

theorem utf8ByteSize_eq (text : String) : text.utf8ByteSize = Text.byteLength text.toList := by
  rw [← utf8ByteSize_ofList, String.ofList_toList]

theorem Position.ofOffset_of_split {text : String} {before after : List Char}
    (split : text.toList = before ++ after) :
    ofOffset text (Text.byteLength before) = Position.after before := by
  rw [ofOffset, split, Text.takeBytes_append]

theorem Position.ofOffset?_of_split {text : String} {before after : List Char}
    (split : text.toList = before ++ after) :
    ofOffset? text (Text.byteLength before) = some (ofOffset text (Text.byteLength before)) := by
  have cut : Text.takeBytes (Text.byteLength before) text.toList = before := by
    rw [split, Text.takeBytes_append]
  have within : Text.byteLength before ≤ text.utf8ByteSize := by
    rw [utf8ByteSize_eq, split, Text.byteLength_append]
    exact Nat.le_add_right _ _
  rw [ofOffset_of_split split]
  simp only [ofOffset?, cut, Nat.min_eq_left within, ↓reduceIte]

/-- A span cuts a text into the characters before it, in it and behind it. -/
structure Span.Cuts (span : Span) (text : String) (before piece after : List Char) : Prop where
  text_eq : text.toList = before ++ (piece ++ after)
  start_eq : span.start = Text.byteLength before
  stop_eq : span.stop = Text.byteLength before + Text.byteLength piece

theorem Span.Cuts.start_le_stop {span : Span} {text : String} {before piece after : List Char}
    (cuts : span.Cuts text before piece after) : span.start ≤ span.stop := by
  rw [cuts.start_eq, cuts.stop_eq]
  exact Nat.le_add_right _ _

namespace Text

/-- What stands before a byte settles what stands behind it. -/
theorem append_inj_of_byteLength {as bs cs ds : List Char} (same : as ++ bs = cs ++ ds)
    (length : byteLength as = byteLength cs) : as = cs ∧ bs = ds := by
  have front : as = cs := by
    rw [← takeBytes_append as bs, same, length, takeBytes_append]
  subst front
  exact ⟨rfl, List.append_cancel_left same⟩

theorem byteLength_pos {cs : List Char} (nonempty : cs ≠ []) : 0 < byteLength cs := by
  cases cs with
  | nil => contradiction
  | cons c cs =>
    have first := c.utf8Size_pos
    rw [byteLength_cons]
    omega

theorem takeBytes_of_le {bytes : Nat} {cs : List Char} (all : byteLength cs ≤ bytes) :
    takeBytes bytes cs = cs := by
  induction cs generalizing bytes with
  | nil => rfl
  | cons c cs ih =>
    rw [byteLength_cons] at all
    rw [takeBytes, if_pos (by omega), ih (by omega)]

theorem exists_takeBytes_append (bytes : Nat) (cs : List Char) :
    ∃ after, cs = takeBytes bytes cs ++ after := by
  induction cs generalizing bytes with
  | nil => exact ⟨[], rfl⟩
  | cons c cs ih =>
    rw [takeBytes]
    split
    · obtain ⟨after, rest⟩ := ih (bytes - c.utf8Size)
      exact ⟨after, congrArg (c :: ·) rest⟩
    · exact ⟨c :: cs, rfl⟩

/-- A byte offset lies between two characters, or at an end, where characters of that many bytes
stand before it. -/
theorem isValid_iff {text : String} {offset : Nat} : (⟨offset⟩ : String.Pos.Raw).IsValid text ↔
    byteLength (takeBytes offset text.toList) = offset := by
  rw [String.Pos.Raw.isValid_iff_exists_append]
  constructor
  · rintro ⟨before, after, rfl, same⟩
    have bytes : offset = byteLength before.toList := by
      rw [← utf8ByteSize_eq]
      exact congrArg String.Pos.Raw.byteIdx same
    rw [String.toList_append, bytes, takeBytes_append]
  · intro bytes
    obtain ⟨after, split⟩ := exists_takeBytes_append offset text.toList
    refine ⟨String.ofList (takeBytes offset text.toList), String.ofList after, ?_, ?_⟩
    · rw [← String.ofList_append, ← split, String.ofList_toList]
    · rw [String.Pos.Raw.ext_iff, String.byteIdx_rawEndPos, utf8ByteSize_ofList, bytes]

theorem slice?_of_split (before piece after : List Char) :
    slice? (byteLength before) (byteLength (before ++ piece)) (before ++ (piece ++ after)) =
      some piece := by
  have through : takeBytes (byteLength (before ++ piece)) (before ++ (piece ++ after)) =
      before ++ piece := by
    rw [← List.append_assoc, takeBytes_append]
  have ordered : byteLength before ≤ byteLength (before ++ piece) := by
    rw [byteLength_append]
    omega
  rw [slice?, through, takeBytes_append, if_pos ⟨ordered, rfl, rfl⟩, List.drop_left]

theorem slice?_eq_none {start stop : Nat} {cs : List Char}
    (inside : byteLength (takeBytes stop cs) ≠ stop) : slice? start stop cs = none :=
  if_neg fun whole => inside whole.2.2

end Text

/-- A span that starts behind some characters cuts the text behind them. -/
theorem Span.Cuts.eq_of_split {span : Span} {text : String}
    {before piece after front cs : List Char} (cuts : span.Cuts text before piece after)
    (split : text.toList = front ++ cs) (start : span.start = Text.byteLength front) :
    before = front ∧ piece ++ after = cs :=
  Text.append_inj_of_byteLength (cuts.text_eq.symm.trans split) (cuts.start_eq.symm.trans start)

/-! Newlines. -/

theorem ofNat_beq_ten (n : Nat) : (UInt8.ofNat n == 10) = decide (n % 256 = 10) := by
  rw [Bool.eq_iff_iff, beq_iff_eq, decide_eq_true_eq, ← UInt8.toNat_inj, UInt8.toNat_ofNat']
  rfl

/-- A newline is one byte, and no other character has that byte. -/
theorem count_utf8EncodeChar (c : Char) :
    (String.utf8EncodeChar c).count 10 = if c = '\n' then 1 else 0 := by
  have newline : c = '\n' ↔ c.val.toNat = 10 := by
    rw [← Char.val_inj, ← UInt32.toNat_inj]
    rfl
  rw [String.utf8EncodeChar.eq_1]
  simp only [newline]
  -- by the number of bytes: the first of several is at least 192, the others at least 128
  split_ifs <;> simp only [List.count_cons, List.count_nil, ofNat_beq_ten, decide_eq_true_eq] <;>
    split_ifs <;> omega

theorem count_newline_bytes (text : String) :
    text.toUTF8.data.toList.count 10 = text.toList.count '\n' := by
  have bytes : text.toUTF8.data.toList = text.toList.flatMap String.utf8EncodeChar := by
    rw [String.toUTF8]
    nth_rewrite 1 [← String.ofList_toList (s := text)]
    rw [String.toByteArray_ofList, List.utf8Encode, List.toList_data_toByteArray]
  rw [bytes]
  induction text.toList with
  | nil => rfl
  | cons c cs ih =>
    rw [List.flatMap_cons, List.count_append, ih, count_utf8EncodeChar, List.count_cons,
      Nat.add_comm]
    simp only [beq_iff_eq]

/-! Reading a text from its start. -/

namespace Position

instance : LT Position := ⟨fun p q => p.line < q.line ∨ p.line = q.line ∧ p.column < q.column⟩

theorem lt_iff {p q : Position} :
    p < q ↔ p.line < q.line ∨ p.line = q.line ∧ p.column < q.column := Iff.rfl

theorem lt_trans {p q r : Position} (first : p < q) (second : q < r) : p < r := by
  rw [lt_iff] at *
  omega

theorem lt_irrefl (p : Position) : ¬ p < p := by
  rw [lt_iff]
  omega

theorem lt_advance (p : Position) (c : Char) : p < p.advance c := by
  rw [lt_iff, advance]
  split
  · exact .inl (Nat.lt_succ_self _)
  · exact .inr ⟨rfl, Nat.lt_succ_self _⟩

theorem after_append_singleton (cs : List Char) (c : Char) :
    after (cs ++ [c]) = (after cs).advance c := by
  rw [after, List.foldl_append]
  rfl

theorem after_lt {before piece : List Char} (nonempty : piece ≠ []) :
    after before < after (before ++ piece) := by
  induction piece using List.reverseRecOn with
  | nil => contradiction
  | append_singleton cs c ih =>
    rw [← List.append_assoc, after_append_singleton]
    by_cases first : cs = []
    · rw [first, List.append_nil]
      exact lt_advance _ c
    · exact lt_trans (ih first) (lt_advance _ c)

theorem after_eq (cs : List Char) :
    after cs = ⟨1 + cs.count '\n', (cs.rtakeWhile (· ≠ '\n')).length⟩ := by
  induction cs using List.reverseRecOn with
  | nil => rfl
  | append_singleton cs c ih =>
    rw [after_append_singleton, ih, advance, List.count_append]
    split
    · next newline =>
      subst newline
      rw [List.rtakeWhile_concat_neg _ _ _ (by decide)]
      rfl
    · next other =>
      rw [List.rtakeWhile_concat_pos _ _ _ (by simpa using other), List.length_append,
        List.count_singleton, if_neg (by simpa using other)]
      rfl

end Position

/-! Looking up the start of a line. -/

namespace LineIndex

theorem newlineEnds_append (offset : Nat) (as bs : List Char) :
    newlineEnds offset (as ++ bs) =
      newlineEnds offset as ++ newlineEnds (offset + Text.byteLength as) bs := by
  induction as generalizing offset with
  | nil => rfl
  | cons c as ih =>
    simp only [List.cons_append, newlineEnds, ih, Text.byteLength_cons, Nat.add_assoc]
    split <;> rfl

theorem length_newlineEnds (offset : Nat) (cs : List Char) :
    (newlineEnds offset cs).length = cs.count '\n' := by
  induction cs generalizing offset with
  | nil => rfl
  | cons c cs ih =>
    simp only [newlineEnds, List.count_cons, beq_iff_eq]
    split
    · rw [List.length_cons, ih]
    · rw [ih, Nat.add_zero]

theorem newlineEnds_bounds {offset : Nat} {cs : List Char} :
    ∀ stop ∈ newlineEnds offset cs, offset < stop ∧ stop ≤ offset + Text.byteLength cs := by
  induction cs generalizing offset with
  | nil => simp [newlineEnds]
  | cons c cs ih =>
    have size := c.utf8Size_pos
    intro stop member
    rw [Text.byteLength_cons]
    rw [newlineEnds] at member
    split at member
    · rcases List.mem_cons.mp member with rfl | member
      · omega
      · have later := ih stop member
        omega
    · have later := ih stop member
      omega

/-- Halving finds where the starts beyond the offset begin. -/
theorem search_eq {starts : Array Nat} {offset count low high : Nat}
    (upTo : ∀ i (inside : i < starts.size), starts[i] ≤ offset ↔ i < count) (least : low ≤ count)
    (most : count ≤ high) (within : high ≤ starts.size) :
    search starts offset low high = count := by
  fun_induction search starts offset low high with
  | case1 low high range middle reached ih =>
    have some := (upTo middle (by omega)).mp reached
    exact ih (by omega) most within
  | case2 low high range middle beyond ih =>
    have none := mt (upTo middle (by omega)).mpr beyond
    exact ih least (by omega) (by omega)
  | case3 low high range => omega

theorem le_iff_lt_length {first second : List Nat} {bound : Nat} (upTo : ∀ x ∈ first, x ≤ bound)
    (beyond : ∀ x ∈ second, bound < x) (i : Nat) (inside : i < (first ++ second).length) :
    (first ++ second)[i] ≤ bound ↔ i < first.length := by
  by_cases early : i < first.length
  · rw [List.getElem_append_left early]
    exact iff_of_true (upTo _ (List.getElem_mem early)) early
  · rw [List.getElem_append_right (Nat.le_of_not_lt early)]
    exact iff_of_false (Nat.not_le_of_lt (beyond _ (List.getElem_mem _))) early

/-- The starts up to the end of some characters are those behind their newlines, and the first. -/
theorem starts_le_iff (before after : List Char) (i : Nat)
    (inside : i < (0 :: newlineEnds 0 (before ++ after)).length) :
    (0 :: newlineEnds 0 (before ++ after))[i] ≤ Text.byteLength before ↔
      i < 1 + before.count '\n' := by
  have parts : 0 :: newlineEnds 0 (before ++ after) =
      (0 :: newlineEnds 0 before) ++ newlineEnds (Text.byteLength before) after := by
    rw [newlineEnds_append, Nat.zero_add, List.cons_append]
  have length : (0 :: newlineEnds 0 before).length = 1 + before.count '\n' := by
    rw [List.length_cons, length_newlineEnds, Nat.add_comm]
  have upTo : ∀ x ∈ 0 :: newlineEnds 0 before, x ≤ Text.byteLength before := by
    refine List.forall_mem_cons.mpr ⟨Nat.zero_le _, fun x member => ?_⟩
    have bounds := newlineEnds_bounds x member
    omega
  have beyond : ∀ x ∈ newlineEnds (Text.byteLength before) after, Text.byteLength before < x :=
    fun x member => (newlineEnds_bounds x member).1
  rw [parts] at inside
  simp only [parts, ← length]
  exact le_iff_lt_length upTo beyond i inside

/-- The line of an offset starts behind the last newline before it. -/
theorem getElem?_starts (before after : List Char) :
    (0 :: newlineEnds 0 (before ++ after))[before.count '\n']? =
      some (Text.byteLength (before.rdropWhile (· ≠ '\n'))) := by
  induction before using List.reverseRecOn generalizing after with
  | nil => rfl
  | append_singleton cs c ih =>
    rw [List.count_append, List.append_assoc, List.singleton_append]
    by_cases newline : c = '\n'
    · subst newline
      rw [List.rdropWhile_concat_neg _ _ _ (by decide), newlineEnds_append, newlineEnds,
        if_pos rfl, Nat.zero_add, Text.byteLength_append]
      have last : List.count '\n' ['\n'] = 1 := rfl
      rw [last, List.getElem?_cons_succ, ← length_newlineEnds 0 cs,
        List.getElem?_append_right (Nat.le_refl _), Nat.sub_self]
      rfl
    · rw [List.rdropWhile_concat_pos _ _ _ (by simpa using newline), List.count_singleton,
        if_neg (by simpa using newline), Nat.add_zero]
      exact ih (c :: after)

theorem position?_of_split {text : String} {before after : List Char}
    (split : text.toList = before ++ after) :
    (ofText text).position? (Text.byteLength before) = some (Position.after before) := by
  have within : Text.byteLength before ≤ text.utf8ByteSize := by
    rw [utf8ByteSize_eq, split, Text.byteLength_append]
    exact Nat.le_add_right _ _
  have parts : before.rdropWhile (· ≠ '\n') ++ before.rtakeWhile (· ≠ '\n') = before :=
    List.rdropWhile_append_rtakeWhile
  have line : search (ofText text).starts (Text.byteLength before) 0 (ofText text).starts.size =
      1 + before.count '\n' := by
    refine search_eq ?_ (Nat.zero_le _) ?_ (Nat.le_refl _)
    · simp only [ofText, split, List.size_toArray, List.getElem_toArray]
      exact starts_le_iff before after
    · simp only [ofText, split, List.size_toArray, List.length_cons, length_newlineEnds,
        List.count_append]
      omega
  have start : (ofText text).starts[before.count '\n']? =
      some (Text.byteLength (before.rdropWhile (· ≠ '\n'))) := by
    simp only [ofText, split, List.getElem?_toArray]
    exact getElem?_starts before after
  have piece : Text.slice? (Text.byteLength (before.rdropWhile (· ≠ '\n')))
      (Text.byteLength before) text.toList = some (before.rtakeWhile (· ≠ '\n')) := by
    have cut := Text.slice?_of_split (before.rdropWhile (· ≠ '\n'))
      (before.rtakeWhile (· ≠ '\n')) after
    rwa [← List.append_assoc, parts, ← split] at cut
  have text' : (ofText text).text = text := rfl
  simp only [position?, text', Nat.min_eq_left within, line, Nat.add_sub_cancel_left, start,
    Option.bind_some, piece, Option.map_some, Position.after_eq]

/-- Where the text can be split, the index finds the position that reading up to there tells. -/
theorem position?_eq_ofOffset {text : String} {before after : List Char}
    (split : text.toList = before ++ after) :
    (ofText text).position? (Text.byteLength before) =
      some (Position.ofOffset text (Text.byteLength before)) := by
  rw [position?_of_split split, Position.ofOffset_of_split split]

theorem position?_of_le {text : String} {offset : Nat} (beyond : text.utf8ByteSize ≤ offset) :
    (ofText text).position? offset = (ofText text).position? text.utf8ByteSize := by
  have text' : (ofText text).text = text := rfl
  simp only [position?, text', Nat.min_eq_right beyond, Nat.min_self]

theorem position?_eq_none {text : String} {offset : Nat} (within : offset ≤ text.utf8ByteSize)
    (inside : Text.byteLength (Text.takeBytes offset text.toList) ≠ offset) :
    (ofText text).position? offset = none := by
  have text' : (ofText text).text = text := rfl
  simp only [position?, text', Nat.min_eq_left within, Text.slice?_eq_none inside, Option.map_none,
    Option.bind_fun_none]

theorem exists_position {text : String} {offset : Nat}
    (valid : (⟨offset⟩ : String.Pos.Raw).IsValid text) :
    ∃ before after, text.toList = before ++ after ∧ Text.byteLength before = offset ∧
      (ofText text).position? offset = some (Position.after before) := by
  have bytes := Text.isValid_iff.mp valid
  obtain ⟨after, split⟩ := Text.exists_takeBytes_append offset text.toList
  have found := position?_of_split split
  rw [bytes] at found
  exact ⟨_, after, split, bytes, found⟩

/-- Later offsets have later positions. -/
theorem position?_lt {text : String} {offset later : Nat}
    (valid : (⟨offset⟩ : String.Pos.Raw).IsValid text)
    (valid' : (⟨later⟩ : String.Pos.Raw).IsValid text) (lt : offset < later) :
    ∃ p q, (ofText text).position? offset = some p ∧ (ofText text).position? later = some q ∧
      p < q := by
  obtain ⟨before, after, split, rfl, found⟩ := exists_position valid
  obtain ⟨before', after', split', rfl, found'⟩ := exists_position valid'
  refine ⟨_, _, found, found', ?_⟩
  rw [split] at split'
  rcases List.append_eq_append_iff.mp split' with ⟨piece, rfl, -⟩ | ⟨piece, rfl, -⟩
  · refine Position.after_lt ?_
    rintro rfl
    rw [List.append_nil] at lt
    exact Nat.lt_irrefl _ lt
  · rw [Text.byteLength_append] at lt
    omega

/-- The index finds the position of reading the text up to the offset. -/
theorem position?_eq_ofOffset? (text : String) (offset : Nat) :
    (ofText text).position? offset = Position.ofOffset? text offset := by
  by_cases within : offset ≤ text.utf8ByteSize
  · by_cases bytes : Text.byteLength (Text.takeBytes offset text.toList) = offset
    · obtain ⟨before, after, split, rfl, found⟩ := exists_position (Text.isValid_iff.mpr bytes)
      rw [found, Position.ofOffset?_of_split split, Position.ofOffset_of_split split]
    · rw [position?_eq_none within bytes]
      simp only [Position.ofOffset?, Nat.min_eq_left within, if_neg bytes]
  · have beyond : text.utf8ByteSize ≤ offset := Nat.le_of_not_le within
    have last : (ofText text).position? text.utf8ByteSize = some (Position.after text.toList) := by
      rw [utf8ByteSize_eq]
      exact position?_of_split (List.append_nil _).symm
    have all : Text.takeBytes offset text.toList = text.toList :=
      Text.takeBytes_of_le (by rwa [← utf8ByteSize_eq])
    rw [position?_of_le beyond, last]
    simp only [Position.ofOffset?, Nat.min_eq_right beyond, all, ← utf8ByteSize_eq, ↓reduceIte]

end LineIndex

open LineIndex (ofText)

/-- A position tells how many newlines stand before it, and how many characters behind the last of
them. Newlines are counted as bytes, of which `10` is the newline. -/
structure Position.Counts (p : Position) (before : String) : Prop where
  line : p.line = 1 + before.toUTF8.data.toList.count 10
  column : p.column = (before.toList.rtakeWhile (· ≠ '\n')).length

/-- The position of a byte offset counts what stands before it; an offset beyond the end counts as
the end, and one inside a character has none. Of two offsets in a text the later has the later
position, so positions tell them apart. The position is that of reading the text from its start. -/
theorem LineIndex.position?_exact :
    (∀ before after, ∃ p, (ofText (before ++ after)).position? before.utf8ByteSize = some p ∧
      p.Counts before) ∧
    (∀ text offset, text.utf8ByteSize ≤ offset →
      (ofText text).position? offset = (ofText text).position? text.utf8ByteSize) ∧
    (∀ text offset, offset ≤ text.utf8ByteSize →
      ((ofText text).position? offset = none ↔ ¬ (⟨offset⟩ : String.Pos.Raw).IsValid text)) ∧
    (∀ text offset later, (⟨offset⟩ : String.Pos.Raw).IsValid text →
      (⟨later⟩ : String.Pos.Raw).IsValid text → offset < later →
      ∃ p q, (ofText text).position? offset = some p ∧ (ofText text).position? later = some q ∧
        p < q) ∧
    (∀ text offset other, (⟨offset⟩ : String.Pos.Raw).IsValid text →
      (⟨other⟩ : String.Pos.Raw).IsValid text →
      ((ofText text).position? offset = (ofText text).position? other ↔ offset = other)) ∧
    ∀ text offset, (ofText text).position? offset = Position.ofOffset? text offset := by
  have apart (text : String) (offset other : Nat)
      (valid : (⟨offset⟩ : String.Pos.Raw).IsValid text)
      (valid' : (⟨other⟩ : String.Pos.Raw).IsValid text)
      (same : (ofText text).position? offset = (ofText text).position? other) :
      ¬ offset < other := by
    intro lt
    obtain ⟨p, q, found, found', later⟩ := position?_lt valid valid' lt
    rw [found, found', Option.some.injEq] at same
    exact Position.lt_irrefl q (same ▸ later)
  refine ⟨fun before after => ?_, fun _ _ => position?_of_le, fun text offset within => ?_,
    fun _ _ _ => position?_lt, fun text offset other valid valid' => ?_, position?_eq_ofOffset?⟩
  · have split : (before ++ after).toList = before.toList ++ after.toList := String.toList_append
    have found := position?_of_split split
    rw [← utf8ByteSize_eq, Position.after_eq] at found
    exact ⟨_, found, ⟨by rw [count_newline_bytes], rfl⟩⟩
  · constructor
    · intro none valid
      obtain ⟨before, after, -, -, found⟩ := exists_position valid
      rw [none] at found
      contradiction
    · intro inside
      exact position?_eq_none within (mt Text.isValid_iff.mpr inside)
  · refine ⟨fun same => ?_, fun same => by rw [same]⟩
    have first := apart text offset other valid valid' same
    have second := apart text other offset valid' valid same.symm
    omega

/-- A character of two bytes, and a line without a newline at its end. -/
theorem LineIndex.position?_exact_accent :
    (ofText "é\nab").position? 9 = (ofText "é\nab").position? 5 ∧
    (1 ≤ "é\nab".utf8ByteSize ∧ ((ofText "é\nab").position? 1 = none ↔
      ¬ (⟨1⟩ : String.Pos.Raw).IsValid "é\nab")) ∧
    ((⟨2⟩ : String.Pos.Raw).IsValid "é\nab" ∧ (⟨3⟩ : String.Pos.Raw).IsValid "é\nab" ∧
      (∃ p q, (ofText "é\nab").position? 2 = some p ∧ (ofText "é\nab").position? 3 = some q ∧
        p < q) ∧
      ((ofText "é\nab").position? 2 = (ofText "é\nab").position? 3 ↔ 2 = 3)) ∧
    (ofText "é\nab").position? 1 = none ∧ (ofText "é\nab").position? 2 = some ⟨1, 1⟩ ∧
    (ofText "é\nab").position? 3 = some ⟨2, 0⟩ ∧ (ofText "é\nab").position? 9 = some ⟨2, 2⟩ := by
  have newline : (⟨2⟩ : String.Pos.Raw).IsValid "é\nab" := Text.isValid_iff.mpr (by decide +kernel)
  have line : (⟨3⟩ : String.Pos.Raw).IsValid "é\nab" := Text.isValid_iff.mpr (by decide +kernel)
  obtain ⟨-, clamps, inside, later, same, -⟩ := position?_exact
  exact ⟨clamps "é\nab" 9 (by decide), ⟨by decide, inside "é\nab" 1 (by decide)⟩,
    ⟨newline, line, later "é\nab" 2 3 newline line (by decide), same "é\nab" 2 3 newline line⟩,
    by decide +kernel, by decide +kernel, by decide +kernel, by decide +kernel⟩

end ProcessCalculus
