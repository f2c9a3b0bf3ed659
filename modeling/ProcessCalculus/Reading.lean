import ProcessCalculus.SyntaxError
import ProcessCalculus.Token.Scan

/-!
Reading a program from its text. A text is refused at the first token that cannot continue a
program, or at its end where it stops too early.
-/
namespace ProcessCalculus.Program

/-- The definitions of a text, as they are written. A token or the end of the text is blamed at the
position of where it stops, which is always between two characters. -/
def readDefinitions (text : String) : Except SyntaxError (List Definition) :=
  match Grammar.State.start.advance Located.token (Token.scanText text) with
  | (state, []) =>
    match state.finish? with
    | some ds => .ok ds
    | none =>
      let stop := text.utf8ByteSize
      .error ⟨none, state.expected, ⟨stop, stop⟩, Position.ofOffset text stop⟩
  | (state, t :: _) =>
    .error ⟨some t.token, state.expected, t.span, Position.ofOffset text t.span.stop⟩

/-- Reads a program from its text. -/
def read (text : String) : Except SyntaxError Program :=
  (readDefinitions text).map ofDefinitions

/-- Reads a program for a caller who is told about a refused text, in more words where `verbose`. -/
def readWith (verbose : Bool) (text : String) : Except Complaint Program :=
  (read text).mapError (·.complaint verbose)

end ProcessCalculus.Program
