import TreeAsm.Proofs.Discipline
import TreeAsm.Proofs.Machine

/-! What single instructions do to the words of a running body and to static cells. -/
namespace TreeAsm
open Code

namespace Opcode

/-- Instructions that work on words and cells, and go on to the next one. -/
def isOrdinary : Opcode → Bool
  | .push | .pop | .addsp | .deci | .deco | .nop => true
  | o => o.operands ≠ 0

end Opcode

namespace Instruction

/-- The static cell that the instruction stores a word in. -/
def stores? (i : Instruction) : Option Label :=
  match i.opcode, i.operand with
  | .pop, some (.mem (.static l)) => some l
  | _, _ => none

end Instruction

/-- What an instruction does to calls and to static cells. -/
inductive Event where
  | plain
  | store (text : String)
  /-- A `return`: behind the store of its result, a routine branches to its end. -/
  | leave
  | call (text : String)
  | ret
deriving DecidableEq

namespace Instruction

def event (i : Instruction) : Event :=
  match i.opcode, i.operand with
  | .call, some (.target l) => .call l.text
  | .ret, _ => .ret
  | .pop, some (.mem (.static l)) => .store l.text
  | .br, some (.target (.exit _)) => .leave
  | _, _ => .plain

theorem event_congr {i j : Instruction} (ho : i.opcode = j.opcode) (hx : i.operand = j.operand) :
    i.event = j.event := by
  rw [event, event, ho, hx]

theorem event_eq_store {i : Instruction} {l : Label} (h : i.stores? = some l) :
    i.event = .store l.text := by
  unfold stores? at h
  split at h
  next m ho hx =>
    obtain rfl := Option.some.inj h
    simp [event, ho, hx]
  next => simp at h

theorem gives?_eq_none {i : Instruction} (h : ∀ f, i.stores? ≠ some (.result f)) :
    i.gives? = none := by
  unfold gives?
  split
  next f ho hx => exact absurd (by rw [stores?, ho, hx]) (h f)
  next => rfl

theorem event_of_ordinary {i : Instruction} (ho : i.opcode.isOrdinary = true)
    (hs : i.stores? = none) : i.event = .plain := by
  unfold event
  split
  next h _ => simp [h, Opcode.isOrdinary, Opcode.operands] at ho
  next h => simp [h, Opcode.isOrdinary, Opcode.operands] at ho
  next l h hx => simp [stores?, h, hx] at hs
  next h _ => simp [h, Opcode.isOrdinary, Opcode.operands] at ho
  next => rfl

theorem event_of_branch {i : Instruction} (hb : i.opcode.isBranch = true) :
    i.event = if i.leaves?.isSome then .leave else .plain := by
  obtain ⟨_, o, x, _⟩ := i
  cases o <;> simp [Opcode.isBranch] at hb
  case br =>
    unfold event leaves?
    split <;> simp_all
  case brf => rfl

end Instruction

variable {W I : Type}

/-- From the first state to the second, nothing has changed below the words of the running body, and
no static cell but the one that is named. -/
structure State.Works (c c' : State W I) (below : List (Cell W)) (height : Nat)
    (cell : Option Label) : Prop where
  pc : c'.pc = c.pc
  base : c'.base = c.base
  stack : ∃ ws : List W, c'.stack = ws.map .word ++ below ∧ ws.length = height
  static : ∀ text, (∀ l ∈ cell, text ≠ l.text) → c'.static text = c.static text

namespace State

variable {c c' : State W I} {below : List (Cell W)} {ws : List W} {cell : Option Label}

theorem works_push (hs : c.stack = ws.map .word ++ below) (w : W) (cell : Option Label) :
    c.Works (c.push w) below (ws.length + 1) cell :=
  ⟨rfl, rfl, ⟨w :: ws, by rw [push, hs]; rfl, rfl⟩, fun _ _ => rfl⟩

theorem works_combine? {f : W → W → W} (h : c.combine? f = some c')
    (hs : c.stack = ws.map .word ++ below) (hn : 2 ≤ ws.length) :
    c.Works c' below (ws.length - 2 + 1) cell := by
  match ws, hs, hn with
  | w :: v :: r, hs, _ =>
    simp only [combine?, hs, List.map_cons, List.cons_append] at h
    obtain rfl := Option.some.inj h
    exact ⟨rfl, rfl, ⟨f v w :: r, rfl, rfl⟩, fun _ _ => rfl⟩

theorem works_transform? {f : W → W} (h : c.transform? f = some c')
    (hs : c.stack = ws.map .word ++ below) (hn : 1 ≤ ws.length) :
    c.Works c' below (ws.length - 1 + 1) cell := by
  match ws, hs, hn with
  | v :: r, hs, _ =>
    simp only [transform?, hs, List.map_cons, List.cons_append] at h
    obtain rfl := Option.some.inj h
    exact ⟨rfl, rfl, ⟨f v :: r, rfl, rfl⟩, fun _ _ => rfl⟩

theorem exists_of_pop? {x : W × State W I} (h : c.pop? = some x)
    (hs : c.stack = ws.map .word ++ below) (hn : 1 ≤ ws.length) :
    ∃ r, ws = x.1 :: r ∧ x.2 = { c with stack := r.map .word ++ below } := by
  match ws, hs, hn with
  | w :: r, hs, _ =>
    simp only [pop?, hs, List.map_cons, List.cons_append] at h
    obtain rfl := Option.some.inj h
    exact ⟨r, rfl, rfl⟩

theorem works_store? {code : List Instruction} {w : W} {loc : Location}
    (h : c.store? code w loc = some c') (hs : c.stack = ws.map .word ++ below)
    (hb : c.base = below.length) :
    c.Works c' below ws.length (Instruction.on .pop (.mem loc)).stores? := by
  cases loc with
  | static l =>
    simp only [store?] at h
    split at h
    next =>
      obtain rfl := Option.some.inj h
      exact ⟨rfl, rfl, ⟨ws, hs, rfl⟩, fun text ht => Function.update_of_ne (ht l rfl) _ _⟩
    next => simp at h
  | frame symbol offset =>
    obtain ⟨k, -, h⟩ := Option.bind_eq_some_iff.1 h
    split at h
    next hlt =>
      obtain rfl := Option.some.inj h
      have hset : (c.stack.reverse.set (c.base + k) (.word w)).reverse =
          (ws.reverse.set k w).reverse.map .word ++ below := by
        rw [hs, hb, List.reverse_append, List.set_append_right _ _ (by simp)]
        simp [← List.map_set, ← List.map_reverse]
      exact ⟨rfl, rfl, ⟨_, hset, by simp⟩, fun _ _ => rfl⟩
    next => simp at h

end State

section Execute

variable [DecidableEq W] {M : Words W I} {code : List Instruction} {c c' : State W I}

theorem exists_combine?_of_execute {o : Opcode} (ho : o.operands = 2) {x : Option Operand}
    (h : execute M code c o x = some c') : ∃ f, c.combine? f = some c' := by
  cases x with
  | some x => cases o <;> simp [Opcode.operands, execute] at ho h
  | none => cases o <;> simp [Opcode.operands] at ho <;> exact ⟨_, h⟩

theorem exists_transform?_of_execute {o : Opcode} (ho : o.operands = 1) {x : Option Operand}
    (h : execute M code c o x = some c') : ∃ f, c.transform? f = some c' := by
  cases x with
  | some x => cases o <;> simp [Opcode.operands, execute] at ho h
  | none => cases o <;> simp [Opcode.operands] at ho <;> exact ⟨_, h⟩

theorem pops_of_operands {i : Instruction} (h : i.opcode.operands ≠ 0) :
    i.pops = i.opcode.operands ∧ i.pushes = 1 ∧ i.stores? = none := by
  obtain ⟨l, o, x, t⟩ := i
  cases o <;> simp_all [Opcode.operands, Instruction.pops, Instruction.pushes, Instruction.stores?]

/-- An ordinary instruction takes its words and leaves its own, and changes nothing else but the
cell it stores in. -/
theorem works_of_execute {i : Instruction} (hi : i.opcode.isOrdinary = true)
    (h : execute M code c i.opcode i.operand = some c') {below : List (Cell W)} {ws : List W}
    (hs : c.stack = ws.map .word ++ below) (hb : c.base = below.length) (hn : i.pops ≤ ws.length) :
    c.Works c' below (ws.length - i.pops + i.pushes) i.stores? := by
  by_cases h2 : i.opcode.operands = 2
  · obtain ⟨hp, hq, hc⟩ := pops_of_operands (i := i) (by omega)
    obtain ⟨f, hf⟩ := exists_combine?_of_execute h2 h
    rw [hp, h2] at hn ⊢
    rw [hq]
    exact State.works_combine? hf hs hn
  by_cases h1 : i.opcode.operands = 1
  · obtain ⟨hp, hq, hc⟩ := pops_of_operands (i := i) (by omega)
    obtain ⟨f, hf⟩ := exists_transform?_of_execute h1 h
    rw [hp, h1] at hn ⊢
    rw [hq]
    exact State.works_transform? hf hs hn
  obtain ⟨l, o, x, t⟩ := i
  cases o <;> simp [Opcode.isOrdinary, Opcode.operands] at hi h1 h2
  case push =>
    cases x with
    | none => simp [execute] at h
    | some x =>
      obtain ⟨w, -, rfl⟩ := Option.map_eq_some_iff.1 h
      exact State.works_push hs w _
  case pop =>
    match x, h with
    | some (.mem loc), h =>
      obtain ⟨y, hy, h⟩ := Option.bind_eq_some_iff.1 h
      obtain ⟨r, rfl, hc⟩ := State.exists_of_pop? hy hs hn
      have hw := State.works_store? h (by rw [hc]) (by rw [hc]; exact hb)
      rw [hc] at hw
      exact ⟨hw.pc, hw.base, hw.stack, hw.static⟩
  case addsp =>
    match x, h with
    | some (.imm (.ofNat n)), h =>
      simp only [execute] at h
      split at h
      next =>
        obtain rfl := Option.some.inj h
        have hn : n ≤ ws.length := hn
        have hd : c.stack.drop n = (ws.drop n).map .word ++ below := by
          rw [hs, List.drop_append_of_le_length (by simpa using hn), List.map_drop]
        exact ⟨rfl, rfl, ⟨ws.drop n, hd, by rw [List.length_drop]; rfl⟩, fun _ _ => rfl⟩
      next => simp at h
  case deci =>
    cases x with
    | some x => simp [execute] at h
    | none =>
      obtain ⟨y, -, rfl⟩ := Option.map_eq_some_iff.1 h
      have hw := State.works_push (c := { c with input := y.2 }) hs y.1 none
      exact ⟨hw.pc, hw.base, hw.stack, hw.static⟩
  case deco =>
    cases x with
    | some x => simp [execute] at h
    | none =>
      obtain ⟨y, hy, rfl⟩ := Option.map_eq_some_iff.1 h
      obtain ⟨r, rfl, hc⟩ := State.exists_of_pop? hy hs hn
      rw [hc]
      exact ⟨rfl, rfl, ⟨r, rfl, rfl⟩, fun _ _ => rfl⟩
  case nop =>
    cases x with
    | some x => simp [execute] at h
    | none =>
      obtain rfl := Option.some.inj h
      exact ⟨rfl, rfl, ⟨ws, hs, rfl⟩, fun _ _ => rfl⟩

theorem operand_of_target? {i : Instruction} {l : Label} (h : i.target? = some l) :
    i.operand = some (.target l) := by
  unfold Instruction.target? at h
  split at h
  next m hm => rw [hm, Option.some.inj h]
  next => simp at h

/-- A branch goes to its label, or on to the next instruction; one that tests takes a word. -/
theorem execute_branch {i : Instruction} {l : Label} (hi : i.opcode.isBranch = true)
    (ht : i.target? = some l) {a : Nat} (ha : position? code l.text = some a)
    (h : execute M code c i.opcode i.operand = some c') {below : List (Cell W)} {ws : List W}
    (hs : c.stack = ws.map .word ++ below) (hn : i.pops ≤ ws.length) :
    (c'.pc = a ∨ i.opcode ≠ .br ∧ c'.pc = c.pc) ∧ c'.base = c.base ∧ c'.static = c.static ∧
      ∃ ws' : List W, c'.stack = ws'.map .word ++ below ∧ ws'.length = ws.length - i.pops := by
  rw [operand_of_target? ht] at h
  obtain ⟨_, o, x, _⟩ := i
  cases o <;> simp [Opcode.isBranch] at hi
  case br =>
    simp only [execute, State.jump?, ha, Option.map_some, Option.some.injEq] at h
    obtain rfl := h
    exact ⟨.inl rfl, rfl, rfl, ws, hs, rfl⟩
  case brf =>
    obtain ⟨y, hy, h⟩ := Option.bind_eq_some_iff.1 h
    obtain ⟨r, rfl, hc⟩ := State.exists_of_pop? hy hs hn
    rw [hc] at h
    split at h
    · simp only [State.jump?, ha, Option.map_some, Option.some.injEq] at h
      obtain rfl := h
      exact ⟨.inl rfl, rfl, rfl, r, rfl, rfl⟩
    · obtain rfl := Option.some.inj h
      exact ⟨.inr ⟨by simp, rfl⟩, rfl, rfl, r, rfl, rfl⟩

/-- An unconditional branch goes to its label. -/
theorem execute_br {x : Option Operand} {l : Label} (hx : x = some (.target l)) {a : Nat}
    (ha : position? code l.text = some a) (h : execute M code c .br x = some c') :
    c' = { c with pc := a } := by
  subst hx
  simpa [execute, State.jump?, ha, eq_comm] using h

theorem execute_call {x : Option Operand} {l : Label} (hx : x = some (.target l)) {a : Nat}
    (ha : position? code l.text = some a) (h : execute M code c .call x = some c') :
    c' = { c with pc := a, stack := .back c.pc :: c.stack } := by
  subst hx
  simpa [execute, State.jump?, ha, eq_comm] using h

theorem execute_enter {n : Nat} (h : execute M code c .enter (some (.imm n)) = some c') :
    c'.pc = c.pc ∧ c'.static = c.static ∧ c'.base = c.stack.length + 1 ∧
      ∃ args, c'.stack = (List.replicate n M.blank).map .word ++ .link c.base args :: c.stack := by
  obtain rfl := Option.some.inj h
  exact ⟨rfl, rfl, rfl, c.args, by rw [List.map_replicate]⟩

theorem execute_leave {ws : List W} {base args : Nat} {rest : List (Cell W)}
    (hs : c.stack = ws.map .word ++ .link base args :: rest) (hb : c.base = rest.length + 1)
    (h : execute M code c .leave none = some c') :
    c'.pc = c.pc ∧ c'.static = c.static ∧ c'.base = base ∧ c'.stack = rest := by
  have hd : c.stack.drop (c.stack.length - c.base) = .link base args :: rest := by
    have hlen : c.stack.length - c.base = (ws.map Cell.word).length := by
      rw [hs, hb, List.length_append, List.length_cons]
      omega
    rw [hlen, hs, List.drop_left]
  simp only [execute, hd, Option.some.injEq] at h
  obtain rfl := h
  exact ⟨rfl, rfl, rfl, rfl⟩

theorem execute_ret {pc : Nat} {rest : List (Cell W)} (hs : c.stack = .back pc :: rest)
    (h : execute M code c .ret none = some c') : c' = { c with pc, stack := rest } := by
  simpa [execute, hs, eq_comm] using h

end Execute

end TreeAsm
