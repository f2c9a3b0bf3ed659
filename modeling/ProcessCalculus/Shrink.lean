import ProcessCalculus.Shrink.Silence
import ProcessCalculus.Shrink.Uncalled
import ProcessCalculus.Shrink.Undefined

/-!
Shrinking a program: first its silent functions go, then the functions that nobody calls, then the
calls of functions that are gone. Without the entry function nothing is known to be uncalled.
-/
namespace ProcessCalculus.Program

/-- The name of the function that a program starts from. -/
def entry : String := "main.main"

def shrink (p : Program) : Program :=
  if p.contains entry then
    ((p.withoutSilent fun f => f.name ≠ entry).dropUncalled entry).dropUndefined
  else (p.withoutSilent fun _ => true).dropUndefined

end ProcessCalculus.Program
