/-! What the arguments of the command line ask for. -/
namespace TreeAsm.CommandLine

structure Options where
  input : String
  output : Option String
  /-- Print the tree and compile nothing. -/
  treeOnly : Bool
  verbose : Bool
deriving DecidableEq, Repr

inductive Request where
  | run (options : Options)
  | showVersion
  | showHelp
deriving DecidableEq, Repr

/-- The options that the arguments so far have given. -/
structure Given where
  input : Option String
  output : Option String
  treeOnly : Bool
  verbose : Bool

namespace Given

def nothing : Given := ⟨none, none, false, false⟩

/-- One input file, with a name. -/
def setInput (g : Given) (v : String) : Option Given :=
  if g.input.isSome ∨ v = "" then none else some { g with input := some v }

def setOutput (g : Given) (v : String) : Option Given :=
  if g.output.isSome ∨ v = "" then none else some { g with output := some v }

def setTreeOnly (g : Given) : Option Given :=
  if g.treeOnly then none else some { g with treeOnly := true }

def setVerbose (g : Given) : Option Given :=
  if g.verbose then none else some { g with verbose := true }

/-- At the end an input file has to be there. -/
def request? (g : Given) : Option Request :=
  g.input.map fun input => .run ⟨input, g.output, g.treeOnly, g.verbose⟩

end Given

/-- What an argument leads to: more options, an output file that the next argument names, or a
request that needs no more arguments. -/
inductive Next where
  | given (g : Given)
  | outputOf (g : Given)
  | done (r : Request)

/-- The value of a short option in the same argument, with or without an equals sign. -/
def attached : List Char → String
  | '=' :: r => String.ofList r
  | r => String.ofList r

/-- Short options in one argument. One that takes a value takes the rest of the argument. -/
def shortOptions (g : Given) : List Char → Option Next
  | [] => some (.given g)
  | 'o' :: [] => some (.outputOf g)
  | 'o' :: c :: r => (g.setOutput (attached (c :: r))).map .given
  | 'v' :: r => g.setVerbose.bind fun g => shortOptions g r
  | 'V' :: _ => some (.done .showVersion)
  | 'h' :: _ => some (.done .showHelp)
  | _ :: _ => none

/-- A long option by its full name, with the value after the equals sign if there is one. -/
def longOption (g : Given) (name : List Char) (value : Option String) : Option Next :=
  match String.ofList name, value with
  | "output", none => some (.outputOf g)
  | "output", some v => (g.setOutput v).map .given
  | "ast-only", none => g.setTreeOnly.map .given
  | "verbose", none => g.setVerbose.map .given
  | "version", none => some (.done .showVersion)
  | "help", none => some (.done .showHelp)
  | _, _ => none

def longValue : List Char → Option String
  | [] => none
  | _ :: r => some (String.ofList r)

/-- One argument. A single hyphen is a name, not an option. -/
def argument (g : Given) (arg : String) : Option Next :=
  match arg.toList with
  | '-' :: '-' :: r => longOption g (r.takeWhile (· != '=')) (longValue (r.dropWhile (· != '=')))
  | '-' :: c :: r => shortOptions g (c :: r)
  | _ => (g.setInput arg).map .given

/-- Whether an argument can be the value of the option before it. -/
def isValue (arg : String) : Bool := arg = "-" || arg.toList.head? != some '-'

/-- After two hyphens there are no options any more. -/
def inputsOnly (g : Given) : List String → Option Request
  | [] => g.request?
  | arg :: rest => (g.setInput arg).bind fun g => inputsOnly g rest

def arguments (g : Given) : List String → Option Request
  | [] => g.request?
  | "--" :: rest => inputsOnly g rest
  | arg :: rest =>
    match argument g arg, rest with
    | none, _ => none
    | some (.done r), _ => some r
    | some (.given g), rest => arguments g rest
    | some (.outputOf _), [] => none
    | some (.outputOf g), v :: rest =>
      if isValue v then (g.setOutput v).bind fun g => arguments g rest else none

/-- The request of a list of arguments, or none if they do not fit the usage. -/
def Request.ofArguments? (args : List String) : Option Request := arguments .nothing args

end TreeAsm.CommandLine
