import TreeAsm.CommandLine.Request
import TreeAsm.Compile
import TreeAsm.Tree.Encode
import TreeAsm.Workspace

/-! A run of the command line over a workspace. Everything that can fail comes before the first
output. -/
namespace TreeAsm.CommandLine

def versionText : String := "minipyc 0.1.0\n"

def helpText : String :=
  "Usage: minipyc [OPTIONS] <INPUT>\n\n" ++
  "Arguments:\n  <INPUT>  Input .json program tree\n\nOptions:\n" ++
  "  -o, --output <OUTPUT>  Output .asm file (stdout when omitted)\n" ++
  "      --ast-only         Print the loaded tree and stop\n" ++
  "  -v, --verbose          Log each compilation phase to stderr\n" ++
  "  -h, --help             Print help\n" ++
  "  -V, --version          Print version\n"

inductive Failure where
  | reading (path : String)
  | parsing (cause : LoadError)
  | compiling (path : String) (cause : CompileError)
  | creating (path : String)
  /-- A number outgrew its width. -/
  | overflow
deriving DecidableEq, Repr

namespace Failure

/-- The line that reports the failure. -/
def line? : Failure → Option String
  | .reading path => some ("Error: Reading " ++ path)
  | .parsing _ => some "Error: Parsing program tree"
  | .compiling path _ => some ("Error: Compiling " ++ path)
  | .creating path => some ("Error: Creating " ++ path)
  | .overflow => none

def cause? : Failure → Option String
  | .parsing cause => cause.message?
  | .compiling _ cause => some cause.message
  | .overflow => some "attempt to add with overflow"
  | _ => none

def exitCode : Failure → Nat
  | .overflow => 101
  | _ => 1

end Failure

/-- What is left to do once the input is read and processed. -/
inductive Action where
  | print (text : String)
  /-- The listing goes to a file, or else to the standard output. -/
  | list (p : Program) (output : Option String)
deriving DecidableEq

namespace Options

/-- What to do with the content of the input file. -/
def action (o : Options) (content : String) : Except Failure Action :=
  match Script.load content with
  | .error e => .error (.parsing e)
  | .ok s =>
    if o.treeOnly then .ok (.print (s.dump ++ "\n"))
    else
      match s.compile o.input with
      | .error (.rejected e) => .error (.compiling o.input e)
      | .error _ => .error .overflow
      | .ok p => .ok (.list p o.output)

end Options

/-- What can be seen after a run. -/
structure Outcome where
  exitCode : Nat
  stdout : String
  failure : Option Failure
  workspace : Workspace

namespace Outcome

def success (w : Workspace) (stdout : String) : Outcome := ⟨0, stdout, none, w⟩

def failed (w : Workspace) (f : Failure) : Outcome := ⟨f.exitCode, "", some f, w⟩

/-- Arguments that do not fit the usage. -/
def misused (w : Workspace) : Outcome := ⟨2, "", none, w⟩

end Outcome

/-- What has come out after the whole listing is printed. -/
def printed (p : Program) : String :=
  ((p.emit (m := StateM String) fun text => modify (· ++ text)).run "").2

/-- The workspace after the whole listing is written to an open file. -/
def written (p : Program) (place : List String) (w : Workspace) : Workspace :=
  ((p.emit (m := StateM Workspace) fun text => modify (·.append place text)).run w).2

def Action.perform (w : Workspace) : Action → Outcome
  | .print text => .success w text
  | .list p none => .success w (printed p)
  | .list p (some path) =>
    match w.create? path with
    | none => .failed w (.creating path)
    | some (place, w') => .success (written p place w') ""

def Options.perform (w : Workspace) (o : Options) : Outcome :=
  match w.read? o.input with
  | none => .failed w (.reading o.input)
  | some content =>
    match o.action content with
    | .error f => .failed w f
    | .ok a => a.perform w

def run (w : Workspace) (args : List String) : Outcome :=
  match Request.ofArguments? args with
  | none => .misused w
  | some .showVersion => .success w versionText
  | some .showHelp => .success w helpText
  | some (.run o) => o.perform w

end TreeAsm.CommandLine
