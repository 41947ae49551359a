import TreeAsm.CommandLine.Run

/-! The command line program over the real files. -/
namespace TreeAsm.CommandLine

def Failure.report (f : Failure) : IO UInt32 := do
  for line in f.line?.toList do
    IO.eprintln line
  for cause in f.cause?.toList do
    IO.eprintln ("\nCaused by:\n    " ++ cause)
  return f.exitCode.toUInt32

def readInput (path : String) : IO (Option String) := do
  try
    return some (← IO.FS.readFile path)
  catch _ => return none

def writeOutput (path : String) (p : Program) : IO Bool := do
  try
    IO.FS.withFile path .write fun file => p.emit file.putStr
    return true
  catch _ => return false

def Action.carryOut : Action → IO UInt32
  | .print text => do
    IO.print text
    return 0
  | .list p none => do
    p.emit fun text => IO.print text
    return 0
  | .list p (some path) => do
    if ← writeOutput path p then return 0 else (Failure.creating path).report

def Request.serve : Request → IO UInt32
  | .showVersion => (Action.print versionText).carryOut
  | .showHelp => (Action.print helpText).carryOut
  | .run o => do
    match ← readInput o.input with
    | none => (Failure.reading o.input).report
    | some content =>
      match o.action content with
      | .error f => f.report
      | .ok a => a.carryOut

end TreeAsm.CommandLine

def main (args : List String) : IO UInt32 := do
  match TreeAsm.CommandLine.Request.ofArguments? args with
  | some request => request.serve
  | none =>
    IO.eprint TreeAsm.CommandLine.helpText
    return 2
