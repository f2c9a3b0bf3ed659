/-!
Qualified names as the notation writes them. Brackets, stars, quotes and dashes have no place in a
word and are left out; a path separator is written as an underscore.
-/
namespace ProcessCalculus.Name

/-- The written form of one character of a name, none where the character is left out. -/
def writtenChar (c : Char) : Option Char :=
  if c ∈ ['(', ')', '*', '"', '-'] then none
  else if c = '/' then some '_'
  else some c

/-- The written form of a qualified name. -/
def written (name : String) : String :=
  String.ofList (name.toList.filterMap writtenChar)

theorem toList_written (name : String) :
    (written name).toList = name.toList.filterMap writtenChar := by
  simp [written]

theorem writtenChar_writtenChar {c d : Char} (h : writtenChar c = some d) :
    writtenChar d = some d := by
  rw [writtenChar] at h
  split at h
  · contradiction
  · split at h
    · cases h
      decide
    · cases h
      simp_all [writtenChar]

/-- Writing a written name changes nothing. -/
theorem written_written (name : String) : written (written name) = written name := by
  have fixed : ∀ cs : List Char,
      (cs.filterMap writtenChar).filterMap writtenChar = cs.filterMap writtenChar := by
    intro cs
    induction cs with
    | nil => rfl
    | cons c cs ih =>
      cases h : writtenChar c with
      | none => simpa [h] using ih
      | some d => simp [h, writtenChar_writtenChar h, ih]
  simp [written, fixed]

end ProcessCalculus.Name
