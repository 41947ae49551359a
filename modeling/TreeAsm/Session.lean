import TreeAsm.Compile

/-! Sessions: one supply of label numbers and string constants that labels, constants and whole
compilations draw from in turn. A compilation has string constants of its own and takes only
numbers. -/
namespace TreeAsm.Session

inductive Step where
  | fresh (stem : String)
  | intern (text : String)
  | declarations
  | compile (script : Script) (source : String)

inductive Reply where
  | label (l : Label)
  | declarations (code : List Instruction)
  | compiled (result : Except CompileError Program)

def drawn : Option (Label × Supply) → Except Fault (Reply × Supply)
  | none => .error .labelsExhausted
  | some (l, s) => .ok (.label l, s)

/-- A script that is rejected has drawn numbers too; only running out of them ends the session. -/
def step (s : Supply) : Step → Except Fault (Reply × Supply)
  | .fresh stem => drawn (s.fresh? stem)
  | .intern text => drawn (s.intern? text)
  | .declarations => .ok (.declarations s.strings.declarations, s)
  | .compile script source =>
    let c := script.compileFrom source s.next
    match c.result with
    | .ok p => .ok (.compiled (.ok p), { s with next := c.next })
    | .error (.rejected e) => .ok (.compiled (.error e), { s with next := c.next })
    | .error f => .error f

/-- The reply to each step, with the supply after it. -/
def run (s : Supply) : List Step → Except Fault (List (Reply × Supply))
  | [] => .ok []
  | first :: rest =>
    match step s first with
    | .error f => .error f
    | .ok (reply, s') => (run s' rest).map ((reply, s') :: ·)

end TreeAsm.Session
