/-!
Tokens of the notation and the words that spell them. A word is a keyword if it spells one, a number
if it is a numeral in range, and an identifier otherwise.
-/
namespace ProcessCalculus

inductive Keyword
  | define
  | call
  | spawn
  | case
  | close
  | otherwise
  | endIf
  | endSelect
  | cond
  | bind
  | newChannel
  | select
  | send
  | receive
  | tau
  | newMemory
  | read
  | write
  | newLock
  | mutex
  | rwMutex
  | lock
  | unlock
  | readLock
  | readUnlock
deriving DecidableEq

namespace Keyword

/-- The spelling of a keyword. -/
def text : Keyword → String
  | .define => "def"
  | .call => "call"
  | .spawn => "spawn"
  | .case => "case"
  | .close => "close"
  | .otherwise => "else"
  | .endIf => "endif"
  | .endSelect => "endselect"
  | .cond => "if"
  | .bind => "let"
  | .newChannel => "newchan"
  | .select => "select"
  | .send => "send"
  | .receive => "recv"
  | .tau => "tau"
  | .newMemory => "letmem"
  | .read => "read"
  | .write => "write"
  | .newLock => "letsync"
  | .mutex => "mutex"
  | .rwMutex => "rwmutex"
  | .lock => "lock"
  | .unlock => "unlock"
  | .readLock => "rlock"
  | .readUnlock => "runlock"

def all : List Keyword :=
  [.define, .call, .spawn, .case, .close, .otherwise, .endIf, .endSelect, .cond, .bind,
    .newChannel, .select, .send, .receive, .tau, .newMemory, .read, .write, .newLock, .mutex,
    .rwMutex, .lock, .unlock, .readLock, .readUnlock]

/-- The keyword that a word spells. -/
def ofWord? (word : String) : Option Keyword := all.find? (·.text = word)

@[simp] theorem ofWord?_text (k : Keyword) : ofWord? k.text = some k := by
  cases k <;> decide

theorem ofWord?_eq_some_iff {word : String} {k : Keyword} :
    ofWord? word = some k ↔ word = k.text := by
  constructor
  · intro h
    rw [ofWord?] at h
    have found := List.find?_some h
    exact (of_decide_eq_true found).symm
  · rintro rfl
    exact ofWord?_text k

theorem text_injective {k l : Keyword} (h : k.text = l.text) : k = l := by
  apply Option.some.inj
  rw [← ofWord?_text k, h, ofWord?_text]

end Keyword

/-- Marks of one character each. -/
inductive Mark
  | colon
  | semicolon
  | comma
  | opening
  | closing
  | equals
deriving DecidableEq

namespace Mark

def char : Mark → Char
  | .colon => ':'
  | .semicolon => ';'
  | .comma => ','
  | .opening => '('
  | .closing => ')'
  | .equals => '='

def ofChar? (c : Char) : Option Mark :=
  [.colon, .semicolon, .comma, .opening, .closing, .equals].find? (·.char = c)

@[simp] theorem ofChar?_char (m : Mark) : ofChar? m.char = some m := by
  cases m <;> decide

theorem ofChar?_eq_some_iff {c : Char} {m : Mark} : ofChar? c = some m ↔ c = m.char := by
  constructor
  · intro h
    rw [ofChar?] at h
    have found := List.find?_some h
    exact (of_decide_eq_true found).symm
  · rintro rfl
    exact ofChar?_char m

end Mark

/-- A token; `illegal` is a character that starts none. -/
inductive Token
  | mark (mark : Mark)
  | keyword (keyword : Keyword)
  | identifier (name : String)
  | number (value : Int64)
  | illegal (char : Char)
deriving DecidableEq

namespace Token

/-- Characters of words: letters and digits of the basic alphabet and a few joining marks. -/
def isWordChar (c : Char) : Bool := c.isAlphanum || c ∈ ['_', '.', '#', '/', '$']

/-- The value of a decimal numeral, up to the largest value of 64 bits with a sign; leading zeros
are allowed. -/
def numeral? (word : List Char) : Option Int64 :=
  let value := Nat.ofDigitChars 10 word 0
  if word ≠ [] ∧ word.all Char.isDigit ∧ value ≤ 9223372036854775807 then some (Int64.ofNat value)
  else none

/-- The token that a word spells. -/
def ofWord (word : List Char) : Token :=
  match Keyword.ofWord? (String.ofList word) with
  | some k => .keyword k
  | none =>
    match numeral? word with
    | some value => .number value
    | none => .identifier (String.ofList word)

/-- The token of a character outside words. -/
def ofSymbol (c : Char) : Token :=
  match Mark.ofChar? c with
  | some m => .mark m
  | none => .illegal c

/-- The text of a token. -/
def text : Token → String
  | .mark m => m.char.toString
  | .keyword k => k.text
  | .identifier name => name
  | .number value => toString value.toInt
  | .illegal c => c.toString

end Token
end ProcessCalculus
