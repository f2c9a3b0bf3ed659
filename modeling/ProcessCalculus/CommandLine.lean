import ProcessCalculus.CallGraph.Render
import ProcessCalculus.Reading
import ProcessCalculus.Shrink

/-!
The command line: three flags of one letter, which combine and may each be given once, and at most
one source. Two dashes end the flags, and a dash alone is the name of a source.
-/
namespace ProcessCalculus.CommandLine

/-- What is wrong with the arguments. -/
inductive UsageError
  | unknownFlag (flag : Char)
  | repeatedFlag (flag : Char)
  | secondSource (argument : String)
deriving DecidableEq

def UsageError.message : UsageError → String
  | .unknownFlag flag => "unknown flag -" ++ flag.toString
  | .repeatedFlag flag => "flag -" ++ flag.toString ++ " given twice"
  | .secondSource argument => "more than one source: " ++ argument

/-- The flags `-v`, `-s` and `-g` and the source; standard input is read where none is given. -/
structure Options where
  verbose : Bool
  shrink : Bool
  graph : Bool
  source : Option String
deriving DecidableEq

namespace Options

def none : Options := ⟨false, false, false, .none⟩

def addFlag (o : Options) (flag : Char) : Except UsageError Options :=
  if flag = 'v' then
    if o.verbose then .error (.repeatedFlag flag) else .ok { o with verbose := true }
  else if flag = 's' then
    if o.shrink then .error (.repeatedFlag flag) else .ok { o with shrink := true }
  else if flag = 'g' then
    if o.graph then .error (.repeatedFlag flag) else .ok { o with graph := true }
  else .error (.unknownFlag flag)

def addSource (o : Options) (argument : String) : Except UsageError Options :=
  if o.source.isSome then .error (.secondSource argument)
  else .ok { o with source := some argument }

/-- One argument before the end of the flags: a dash with letters is a group of flags. -/
def addArgument (o : Options) (argument : String) : Except UsageError Options :=
  match argument.toList with
  | '-' :: flag :: flags => (flag :: flags).foldlM addFlag o
  | _ => o.addSource argument

def addArguments (o : Options) : List String → Except UsageError Options
  | [] => .ok o
  | argument :: rest =>
    if argument = "--" then rest.foldlM addSource o
    else
      match o.addArgument argument with
      | .ok o => o.addArguments rest
      | .error e => .error e

/-- The options that the arguments state. -/
def ofArguments (arguments : List String) : Except UsageError Options :=
  none.addArguments arguments

end Options

/-- What a run leaves: its status and the texts on standard output and standard error. -/
structure Outcome where
  status : UInt32
  output : String
  errors : String
deriving DecidableEq

/-- The outcome of arguments that state no options. -/
def refuse (e : UsageError) : Outcome := ⟨2, "", e.message ++ "\n"⟩

/-- The outcome for the bytes of the source, none where it cannot be read: the program in canonical
form, and its call graph on standard error where it is asked for. -/
def Options.respond (o : Options) (content : Option ByteArray) : Outcome :=
  match content.bind String.fromUTF8? with
  | .none => ⟨1, "", "the source cannot be read\n"⟩
  | some text =>
    match Program.readWith o.verbose text with
    | .error complaint => ⟨1, "", complaint.message ++ "\n"⟩
    | .ok read =>
      let p := if o.shrink then read.shrink else read
      ⟨0, p.render, if o.graph then p.callGraph.render p else ""⟩

end ProcessCalculus.CommandLine
