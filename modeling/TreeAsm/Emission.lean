import TreeAsm.Code
import TreeAsm.CompileError
import TreeAsm.Supply

/-! Steps of code generation. A step takes the supply of numbers and constants, and gives the code
that it wrote, the supply that is left, and a value or a fault. Code and supply stand also when the
step fails. -/
namespace TreeAsm

structure Emission (α : Type) where
  items : List Item
  supply : Supply
  result : Except Fault α

def Emit (α : Type) : Type := Supply → Emission α

namespace Emit

def pure {α : Type} (a : α) : Emit α := fun s => ⟨[], s, .ok a⟩

/-- The code of the second step follows that of the first. After a fault there is no second step. -/
def bind {α β : Type} (x : Emit α) (f : α → Emit β) : Emit β := fun s =>
  let first := x s
  match first.result with
  | .error e => ⟨first.items, first.supply, .error e⟩
  | .ok a =>
    let second := f a first.supply
    ⟨first.items ++ second.items, second.supply, second.result⟩

instance : Monad Emit where
  pure := pure
  bind := bind

@[simp] theorem pure_apply {α : Type} (a : α) (s : Supply) :
    (Pure.pure a : Emit α) s = ⟨[], s, .ok a⟩ := rfl

theorem bind_apply {α β : Type} (x : Emit α) (f : α → Emit β) (s : Supply) :
    (x >>= f) s = match (x s).result with
      | .error e => ⟨(x s).items, (x s).supply, .error e⟩
      | .ok a => ⟨(x s).items ++ (f a (x s).supply).items, (f a (x s).supply).supply,
          (f a (x s).supply).result⟩ := rfl

theorem bind_apply_of_ok {α β : Type} {x : Emit α} {s : Supply} {a : α} (h : (x s).result = .ok a)
    (f : α → Emit β) :
    (x >>= f) s = ⟨(x s).items ++ (f a (x s).supply).items, (f a (x s).supply).supply,
      (f a (x s).supply).result⟩ := by
  rw [bind_apply, h]

theorem bind_apply_of_error {α β : Type} {x : Emit α} {s : Supply} {e : Fault}
    (h : (x s).result = .error e) (f : α → Emit β) :
    (x >>= f) s = ⟨(x s).items, (x s).supply, .error e⟩ := by
  rw [bind_apply, h]

theorem result_bind_eq_ok_iff {α β : Type} {x : Emit α} {f : α → Emit β} {s : Supply} {b : β} :
    ((x >>= f) s).result = .ok b ↔
      ∃ a, (x s).result = .ok a ∧ (f a (x s).supply).result = .ok b := by
  cases h : (x s).result with
  | error e => simp [bind_apply_of_error h]
  | ok a => simp [bind_apply_of_ok h]

protected theorem bind_pure {α : Type} (x : Emit α) : (x >>= fun a => Pure.pure a) = x := by
  funext s
  cases h : (x s).result with
  | error e => rw [bind_apply_of_error h, ← h]
  | ok a => simp [bind_apply_of_ok h, ← h]

protected theorem pure_bind {α β : Type} (a : α) (f : α → Emit β) : (Pure.pure a >>= f) = f a := by
  funext s
  simp [bind_apply]

protected theorem bind_assoc {α β γ : Type} (x : Emit α) (f : α → Emit β) (g : β → Emit γ) :
    (x >>= f >>= g) = x >>= fun a => f a >>= g := by
  funext s
  cases h : (x s).result with
  | error e => simp [bind_apply, h]
  | ok a =>
    cases h' : (f a (x s).supply).result with
    | error e => simp [bind_apply, h, h']
    | ok b => simp [bind_apply, h, h']

instance : LawfulMonad Emit :=
  LawfulMonad.mk' Emit (fun x => Emit.bind_pure x) (fun a f => Emit.pure_bind a f)
    (fun x f g => Emit.bind_assoc x f g)

def fault {α : Type} (e : Fault) : Emit α := fun s => ⟨[], s, .error e⟩

def reject {α : Type} (e : CompileError) : Emit α := fault (.rejected e)

def item (i : Item) : Emit Unit := fun s => ⟨[i], s, .ok ()⟩

def mark (l : Label) : Emit Unit := item (.mark l)

def bare (opcode : Opcode) : Emit Unit := item (.op (.bare opcode))

def on (opcode : Opcode) (operand : Operand) : Emit Unit := item (.op (.on opcode operand))

def ofSupply (draw : Supply → Option (Label × Supply)) : Emit Label := fun s =>
  match draw s with
  | none => ⟨[], s, .error .labelsExhausted⟩
  | some (l, s') => ⟨[], s', .ok l⟩

def fresh (stem : String) : Emit Label := ofSupply (·.fresh? stem)

/-- The label of a string constant. -/
def intern (text : String) : Emit Label := ofSupply (·.intern? text)

/-- The settled code of a body, if it has no fault, and the supply that it leaves. -/
def run (body : Emit Unit) (s : Supply) : Except Fault (List Instruction) × Supply :=
  let whole := body s
  (whole.result.map fun _ => Code.settle whole.items, whole.supply)

/-- Bodies handed over one after another, going on after faults: how each ends, the code of all of
them, and the supply that is left. -/
def runEach : List (Emit Unit) → Supply → List (Except Fault Unit) × List Item × Supply
  | [], s => ([], [], s)
  | body :: rest, s =>
    let first := body s
    let (results, items, s') := runEach rest first.supply
    (first.result :: results, first.items ++ items, s')

end Emit
end TreeAsm
