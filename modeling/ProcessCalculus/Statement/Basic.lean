import ProcessCalculus.Parameter

/-!
Statements of the calculus: inaction, visible actions, calls and spawns, and choices. Statements
nest through lists, so `Statement.induct` states the induction with one hypothesis per member.
-/
namespace ProcessCalculus

/-- Actions on one named channel, memory cell or lock. -/
inductive Operation
  | close
  | send
  | receive
  | newMemory
  | read
  | write
  | newMutex
  | lock
  | unlock
  | newRWMutex
  | readLock
  | readUnlock
deriving DecidableEq

/-- What an observer sees of a thread. -/
inductive Action
  | newChannel (name label : String) (capacity : Int64)
  | perform (operation : Operation) (target : String)
deriving DecidableEq

/-- Whether the callee runs before the rest of its caller or beside it. -/
inductive Transfer
  | call
  | spawn
deriving DecidableEq

/-- A statement. A conditional that a loop introduced carries the loop's condition in `loop`;
each case of a choice starts with its guarding action. -/
inductive Statement
  | tau
  | act (action : Action)
  | invoke (mode : Transfer) (callee : String) (arguments : List Parameter)
  | branch (loop : Option String) (thenBody elseBody : List Statement)
  | select (cases : List (List Statement))

/-- Statements that run in sequence. -/
abbrev Block := List Statement

namespace Statement

/-- Induction over statements: the hypotheses speak of every member of the nested blocks. -/
@[elab_as_elim]
theorem induct {P : Statement → Prop} (tau : P .tau) (act : ∀ a, P (.act a))
    (invoke : ∀ m f xs, P (.invoke m f xs))
    (branch : ∀ c t e, (∀ s ∈ t, P s) → (∀ s ∈ e, P s) → P (.branch c t e))
    (select : ∀ cs, (∀ b ∈ cs, ∀ s ∈ b, P s) → P (.select cs)) (s : Statement) : P s :=
  Statement.rec (motive_1 := P) (motive_2 := fun b => ∀ s ∈ b, P s)
    (motive_3 := fun cs => ∀ b ∈ cs, ∀ s ∈ b, P s)
    tau act invoke (fun c t e ht he => branch c t e ht he) (fun cs h => select cs h)
    (fun _ h => nomatch h)
    (fun _ _ head tail s h => (List.mem_cons.mp h).elim (fun e => e ▸ head) (tail s))
    (fun _ h => nomatch h)
    (fun _ _ head tail b h => (List.mem_cons.mp h).elim (fun e => e ▸ head) (tail b)) s

/-! Equality is decided by comparing two statements part by part. -/

mutual

def same : Statement → Statement → Bool
  | .tau, .tau => true
  | .act a, .act b => a == b
  | .invoke m f xs, .invoke n g ys => m == n && f == g && xs == ys
  | .branch c t e, .branch d u v => c == d && sameBlock t u && sameBlock e v
  | .select cs, .select ds => sameCases cs ds
  | _, _ => false

def sameBlock : List Statement → List Statement → Bool
  | [], [] => true
  | s :: b, t :: d => same s t && sameBlock b d
  | _, _ => false

def sameCases : List (List Statement) → List (List Statement) → Bool
  | [], [] => true
  | b :: cs, d :: ds => sameBlock b d && sameCases cs ds
  | _, _ => false

end

mutual

theorem same_iff : ∀ s t : Statement, same s t = true ↔ s = t
  | .tau, t => by cases t <;> simp [same]
  | .act a, t => by cases t <;> simp [same]
  | .invoke m f xs, t => by cases t <;> simp [same, and_assoc]
  | .branch c a b, t => by cases t <;> simp [same, and_assoc, sameBlock_iff a, sameBlock_iff b]
  | .select cs, t => by cases t <;> simp [same, sameCases_iff cs]

theorem sameBlock_iff : ∀ b d : List Statement, sameBlock b d = true ↔ b = d
  | [], d => by cases d <;> simp [sameBlock]
  | s :: b, d => by cases d <;> simp [sameBlock, same_iff s, sameBlock_iff b]

theorem sameCases_iff : ∀ cs ds : List (List Statement), sameCases cs ds = true ↔ cs = ds
  | [], ds => by cases ds <;> simp [sameCases]
  | b :: cs, ds => by cases ds <;> simp [sameCases, sameBlock_iff b, sameCases_iff cs]

end

instance : DecidableEq Statement := fun s t => decidable_of_iff (same s t = true) (same_iff s t)

end Statement
end ProcessCalculus
