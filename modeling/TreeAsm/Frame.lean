import TreeAsm.Program
import TreeAsm.Scope

/-! Frames: the storage of one call of a routine. The place of a variable in the scope of the
routine is its slot. -/
namespace TreeAsm

/-- Slots are counted with 16 bits, and so is their number. -/
def slotLimit : Nat := 65535

structure Frame where
  routine : String
  locals : Scope
  size_le : locals.size ≤ slotLimit

namespace Frame

def ofScope? (routine : String) (locals : Scope) : Option Frame :=
  if h : locals.size ≤ slotLimit then some ⟨routine, locals, h⟩ else none

def size (f : Frame) : Nat := f.locals.size

def params (f : Frame) : List String :=
  (f.locals.toList.filter (·.role = .parameter)).map Variable.name

/-- How many arguments a call passes. -/
def arity (f : Frame) : Nat := f.params.length

def slot? (f : Frame) (name : String) : Option Nat := f.locals.position? name

def resolve? (f : Frame) (name : String) : Option Location :=
  (f.slot? name).map fun offset => .frame (.slot f.routine name) offset

def resultCell (f : Frame) : Location := .static (.result f.routine)

def exitLabel (f : Frame) : Label := .exit f.routine

def slotEquate (f : Frame) (v : Variable) (offset : Nat) : Instruction :=
  ((Instruction.on .equate (.raw (toString offset))).labelled (.slot f.routine v.name)).commented
    (v.role.word ++ " " ++ v.kind.word)

/-- The cell for the result, then the offset of each slot. -/
def reservation (f : Frame) : List Instruction :=
  ((Instruction.on .word (.raw "0")).labelled (.result f.routine)).commented "return value" ::
    f.locals.toList.zipIdx.map fun (v, offset) => f.slotEquate v offset

/-- An argument goes from the call into the slot of its parameter. -/
def bindParam (f : Frame) (name : String) (index : Nat) : List Instruction :=
  match f.resolve? name with
  | none => []
  | some loc =>
    [.on .push (.arg index), (Instruction.on .pop (.mem loc)).commented ("bind " ++ name)]

def prologue (f : Frame) : List Instruction :=
  ((Instruction.on .enter (.imm f.size)).labelled (.plain f.routine)).commented
      (toString f.size ++ " slot(s)") ::
    f.params.zipIdx.flatMap fun (name, index) => f.bindParam name index

def epilogue (f : Frame) : List Instruction :=
  [(Instruction.bare .leave).labelled f.exitLabel, .bare .ret]

/-- The block of a routine around its body. -/
def block (f : Frame) (body : List Instruction) : Block where
  title := "routine " ++ f.routine
  code := f.reservation ++ f.prologue ++ body ++ f.epilogue

/-- The frame of a routine by its name; of several with one name the last counts. -/
def lookup (frames : List Frame) (name : String) : Option Frame :=
  frames.reverse.find? (·.routine = name)

end Frame
end TreeAsm
