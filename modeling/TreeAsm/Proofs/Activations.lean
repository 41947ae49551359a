import TreeAsm.Proofs.Execution
import TreeAsm.Proofs.Representation

/-! What lies on the stack in every state that a compiled program reaches: the words of the running
body, and for each call below it the slots, the frame of the caller and the place to go on. -/
namespace TreeAsm
open Code

variable {W I : Type}


namespace Opcode

/-- What bodies are made of. -/
def isBody (o : Opcode) : Bool := o.isOrdinary || o.isBranch || o = .call

theorem isBranch_of_ordinary {o : Opcode} (h : o.isOrdinary = true) : o.isBranch = false := by
  cases o <;> simp_all [isOrdinary, isBranch, operands]

end Opcode

theorem Lowering.Straight.isBody {env : Env} {i : Instruction} (h : Straight env i) :
    i.opcode.isBody = true := by
  cases h with
  | binary op => cases op <;> rfl
  | unary op => cases op <;> rfl
  | _ => rfl

theorem Lowering.Assembled.settled_isBody {env : Env} {x : List String} {s s' : Supply}
    {items : List Item} (h : Assembled env x s items s') :
    ∀ i ∈ settle items, i.opcode.isBody = true := by
  intro j hj
  rcases mem_settleFrom hj with ⟨l, rfl⟩ | ⟨i, hi, ho, -⟩
  · rfl
  · rw [ho]
    rcases h.ops_cases i hi with hs | ⟨l, rfl⟩ | ⟨l, rfl | rfl⟩
    · exact hs.isBody
    all_goals rfl

namespace Code

variable {code d : List Instruction}

theorem Placed.get {a k : Nat} (h : Placed code a d) {i : Instruction} (hi : d[k]? = some i) :
    Does code (a + k) i ∧ ∀ l, i.label = some l → position? code l.text = some (a + k) := by
  induction d generalizing a k with
  | nil => simp at hi
  | cons j r ih =>
    cases k with
    | zero =>
      obtain rfl := Option.some.inj hi
      exact h.1
    | succ k =>
      have hr := ih h.2 (k := k) (by simpa using hi)
      rwa [Nat.add_right_comm] at hr

/-- Something in a list with a last element is in front of that, or is the last element. -/
theorem concat_cases {j i : Instruction} {k : Nat} (h : (d ++ [j])[k]? = some i) :
    (i ∈ d ∧ k + 1 < (d ++ [j]).length) ∨ (i = j ∧ k + 1 = (d ++ [j]).length) := by
  rw [List.length_append, List.length_singleton]
  by_cases hk : k < d.length
  · rw [List.getElem?_append_left hk] at h
    exact .inl ⟨List.mem_of_getElem? h, by omega⟩
  · rw [List.getElem?_append_right (by omega), List.getElem?_singleton] at h
    split at h
    next hz => exact .inr ⟨(Option.some.inj h).symm, by omega⟩
    next => simp at h

end Code

namespace Frame

/-- What runs between entering and returning. -/
def inner (f : Frame) (items : List Item) : List Instruction :=
  f.bindings ++ settle items ++ [(Instruction.bare .leave).labelled f.exitLabel]

theorem mem_bindings {f : Frame} {i : Instruction} (h : i ∈ f.bindings) :
    i.label = none ∧ (i.opcode = .push ∨ i.opcode = .pop) := by
  obtain ⟨⟨name, k⟩, -, h⟩ := List.mem_flatMap.1 h
  simp only [bindParam] at h
  split at h
  next => simp at h
  next loc _ =>
    rcases List.mem_cons.1 h with rfl | h
    · exact ⟨rfl, .inl rfl⟩
    · obtain rfl := List.mem_singleton.1 h
      exact ⟨rfl, .inr rfl⟩

/-- Where the routine is entered, runs and returns in a listing. -/
structure Spot (f : Frame) (items : List Item) (code : List Instruction) (entry : Nat) : Prop where
  starts : position? code f.routine = some entry
  enter : Does code entry (.on .enter (.imm f.size))
  inner : Placed code (entry + 1) (f.inner items)
  ret : Does code (entry + 1 + (f.inner items).length) (.bare .ret)

theorem exists_spot {f : Frame} {items : List Item} {code before after : List Instruction}
    (hn : ((labels code).map Label.text).Nodup)
    (h : code = before ++ ((f.assemble items).code ++ after)) :
    ∃ entry, f.Spot items code entry := by
  have hblock : (f.assemble items).code = f.reservation ++
      (((Instruction.on .enter (.imm f.size)).labelled (.plain f.routine)).commented
        (toString f.size ++ " slot(s)") ::
        (f.inner items ++ [.bare .ret])) := by
    simp [assemble, block, prologue, bindings, inner, epilogue]
  have hp : Placed code before.length (f.assemble items).code := placed_of_eq_append hn h
  rw [hblock] at hp
  obtain ⟨-, ⟨henter, hentry⟩, hp⟩ := placed_append.1 hp
  obtain ⟨hinner, ⟨hret, -⟩, -⟩ := placed_append.1 hp
  exact ⟨_, hentry _ rfl, henter, hinner, hret⟩

end Frame

namespace Build

variable {s : Script} {source : String} {seed : Nat} {p : Program} (b : Build s source seed p)

/-- The code that runs as the body of a routine, or at top level. -/
def inner (p : Program) : Option (Routine × Frame × List Item) → List Instruction
  | none => p.topLevel.code
  | some x => x.2.1.inner x.2.2

/-- How many words of the stack are slots while the code runs. -/
def slots : Option (Routine × Frame × List Item) → Nat
  | none => 0
  | some x => x.2.1.size

/-- The code of a routine, or of the top level, lies in the listing from here on. -/
inductive Starts (b : Build s source seed p) :
    Option (Routine × Frame × List Item) → Nat → Prop where
  | top {a : Nat} (h : Placed p.listing a p.topLevel.code) : b.Starts none a
  | routine {x : Routine × Frame × List Item} {entry : Nat} (hx : x ∈ b.pieces)
      (h : x.2.1.Spot x.2.2 p.listing entry) : b.Starts (some x) (entry + 1)

theorem exists_spot (hn : s.Named) {x : Routine × Frame × List Item} (hx : x ∈ b.pieces) :
    ∃ entry, x.2.1.Spot x.2.2 p.listing entry := by
  have hm : x.2.1.assemble x.2.2 ∈ p.routines := b.blocks_eq ▸ List.mem_map_of_mem hx
  obtain ⟨us, vs, huv⟩ := List.append_of_mem hm
  have hlist : p.listing = (.on .br (.target (.plain Label.entry)) :: (p.data.code ++
      (p.strings.toList.flatMap Block.code ++ us.flatMap Block.code))) ++
        ((x.2.1.assemble x.2.2).code ++
        (vs.flatMap Block.code ++ (p.topLevel.code ++ [.bare .finish]))) := by
    rw [listing_eq, huv]
    simp
  exact Frame.exists_spot (b.nodup_listing hn) hlist

theorem exists_starts_top (hn : s.Named) :
    ∃ a, b.Starts none a ∧ position? p.listing Label.entry = some a ∧
    0 < p.topLevel.code.length := by
  have hlist : p.listing = (.on .br (.target (.plain Label.entry)) :: (p.data.code ++
      (p.strings.toList.flatMap Block.code ++ p.routines.flatMap Block.code))) ++
        (p.topLevel.code ++ [.bare .finish]) := by
    rw [listing_eq]
    simp
  have hp := placed_of_eq_append (b.nodup_listing hn) hlist
  have htop : p.topLevel.code = withLabel (.plain Label.entry) (settle b.top ++ [.bare .stop]) := by
    rw [b.topLevel_eq]
    rfl
  have hne : 0 < p.topLevel.code.length := by
    obtain ⟨d, m, hd, -⟩ := b.topLevel_concat
    rw [hd, List.length_append]
    exact Nat.succ_pos _
  exact ⟨_, .top hp, (placed_of_withLabel (htop ▸ hp)).1, hne⟩

variable {b} {ρ : Option (Routine × Frame × List Item)} {o : Nat}

theorem Starts.mem (h : b.Starts ρ o) : ∀ x ∈ ρ, x ∈ b.pieces := by
  cases h with
  | top => nofun
  | routine hx h => exact fun y hy => Option.some.inj hy ▸ hx

theorem Starts.placed (h : b.Starts ρ o) : Placed p.listing o (inner p ρ) := by
  cases h with
  | top h => exact h
  | routine hx h => exact h.inner

/-- The code goes from rest to rest. -/
theorem Starts.passes (h : b.Starts ρ o) : Passes s (ρ.map (·.1.name)) .rest (inner p ρ) .rest := by
  cases h with
  | top h => exact b.passes_topLevel
  | @routine x entry hx h =>
    have hleave : Passes s (some x.1.name) .rest
        [(Instruction.bare .leave).labelled x.2.1.exitLabel] .rest :=
      ⟨⟨.plain (Nat.le_refl _) rfl rfl, fun _ => rfl⟩, rfl⟩
    exact ((x.2.1.passes_bindings _ _).append (b.passes_body hx)).append hleave

/-- The instructions of a body, with its end: leaving the frame, or stopping the program. -/
theorem Starts.inner_cases (h : b.Starts ρ o) {k : Nat} {i : Instruction}
    (hi : (inner p ρ)[k]? = some i) :
    (i.opcode.isBody = true ∧ k + 1 < (inner p ρ).length) ∨
      (∃ x, ρ = some x ∧ i = (Instruction.bare .leave).labelled x.2.1.exitLabel ∧
        k + 1 = (inner p ρ).length) ∨
      (ρ = none ∧ i.opcode = .stop) := by
  cases h with
  | top h =>
    have hbody := b.topBody_assembled.settled_isBody
    obtain ⟨d, m, hd, hm⟩ := b.topLevel_concat
    rw [inner, hd] at hi ⊢
    rcases concat_cases hi with ⟨hi, hk⟩ | ⟨rfl, -⟩
    · refine .inl ⟨?_, hk⟩
      rcases hm i hi with ⟨l, rfl⟩ | ⟨j, hj, ho⟩
      · rfl
      · rw [ho]
        exact hbody j hj
    · exact .inr (.inr ⟨rfl, rfl⟩)
  | @routine x entry hx h =>
    obtain ⟨s₁, s₂, ha, -⟩ := b.piece_assembled hx
    rcases concat_cases hi with ⟨hi, hk⟩ | ⟨rfl, hk⟩
    · refine .inl ⟨?_, hk⟩
      rcases List.mem_append.1 hi with hi | hi
      · rcases (Frame.mem_bindings hi).2 with ho | ho
        · rw [ho]
          rfl
        · rw [ho]
          rfl
      · exact ha.settled_isBody i hi
    · exact .inr (.inl ⟨x, rfl, rfl, hk⟩)

theorem Starts.mem_block (h : b.Starts ρ o) : ∃ c ∈ p.blocks, ∀ i ∈ inner p ρ, i ∈ c.code := by
  cases h with
  | top h => exact ⟨p.topLevel, by simp [Program.blocks], fun i hi => hi⟩
  | @routine x entry hx h =>
    have hc : x.2.1.assemble x.2.2 ∈ p.routines := b.blocks_eq ▸ List.mem_map_of_mem hx
    refine ⟨x.2.1.assemble x.2.2, by simp [Program.blocks, hc], fun i hi => ?_⟩
    simp only [inner, Frame.inner, Frame.bindings, List.mem_append, List.mem_singleton] at hi
    simp only [Frame.assemble, Frame.block, Frame.prologue, Frame.epilogue, List.mem_append,
      List.mem_cons]
    tauto

/-- Branches of a body stay in it. -/
theorem Starts.branch_target (h : b.Starts ρ o) {i : Instruction} (hi : i ∈ inner p ρ)
    (hb : i.opcode.isBranch = true) : ∃ l ∈ labels (inner p ρ), i.target? = some l := by
  cases h with
  | top h => exact b.branch_mem_labels (c := p.topLevel) (by simp [Program.blocks]) hi hb
  | @routine x entry hx h =>
    obtain ⟨s₁, s₂, ha, -⟩ := b.piece_assembled hx
    have hlabels : labels (x.2.1.inner x.2.2) =
        labels x.2.1.bindings ++ marks x.2.2 ++ [x.2.1.exitLabel] := by
      rw [Frame.inner, labels_append, labels_append, labels_settle ha.label_eq_none]
      rfl
    simp only [inner, Frame.inner, List.mem_append, List.mem_singleton] at hi
    rcases hi with (hi | hi) | rfl
    · rcases (Frame.mem_bindings hi).2 with ho | ho <;> simp [ho, Opcode.isBranch] at hb
    · obtain ⟨l, hl, hm⟩ := ha.settled_branch hi hb
      refine ⟨l, ?_, hl⟩
      rw [inner, hlabels]
      rcases hm with hm | ⟨cell, hr⟩
      · simp [hm]
      · obtain ⟨-, rfl⟩ := Prod.mk.inj (Option.some.inj hr)
        simp
    · simp [Instruction.labelled, Instruction.bare, Opcode.isBranch] at hb

/-- A `return` leads to the last instruction of the body. -/
theorem Starts.exit_position (h : b.Starts ρ o) {k : Nat} {i : Instruction}
    (hi : (inner p ρ)[k]? = some i) {f : String} (hf : i.leaves? = some f) {m : Nat}
    (hm : position? p.listing (Label.exit f).text = some (o + m)) : m + 1 = (inner p ρ).length := by
  obtain ⟨x, rfl, rfl⟩ := Option.map_eq_some_iff.1 ((h.passes.suits hi).1.leaves f hf)
  have hx := h.mem x rfl
  have hlen : (inner p (some x)).length = (x.2.1.bindings ++ settle x.2.2).length + 1 := by
    rw [inner, Frame.inner, List.length_append, List.length_singleton]
  have hlast : (inner p (some x))[(x.2.1.bindings ++ settle x.2.2).length]? =
      some ((Instruction.bare .leave).labelled x.2.1.exitLabel) := by
    rw [inner, Frame.inner, List.getElem?_concat_length]
  have hpos := (h.placed.get hlast).2 x.2.1.exitLabel rfl
  rw [Frame.exitLabel, (b.routine_eq_of_mem hx).1, hm] at hpos
  have := Option.some.inj hpos
  omega

/-- What a body stores in static cells: globals, and the result of its routine. -/
theorem Starts.stored (h : b.Starts ρ o) {i : Instruction} (hi : i ∈ inner p ρ) {l : Label}
    (hl : i.stores? = some l) :
    (∃ f, i.gives? = some f ∧ l = .result f) ∨ (∃ g ∈ b.layout.globals.names, l = .plain g) := by
  obtain ⟨c, hc, hm⟩ := h.mem_block
  unfold Instruction.stores? at hl
  split at hl
  next m ho hx =>
    obtain rfl := Option.some.inj hl
    rcases b.mem_cases hc (hm i hi) hx with ⟨x, -, -, name, k, -, hloc⟩ |
      ⟨g, hg, hloc⟩ | ⟨f, -, hloc⟩
    · simp at hloc
    · exact .inr ⟨g, hg, Location.static.inj hloc⟩
    · obtain rfl := Location.static.inj hloc
      exact .inl ⟨f.routine, by simp [Instruction.gives?, ho, hx], rfl⟩
  next => simp at hl

/-- What a body calls is a routine with its code. -/
theorem Starts.callee (h : b.Starts ρ o) {k : Nat} {i : Instruction} (hi : (inner p ρ)[k]? = some i)
    (hc : i.opcode = .call) : ∃ y ∈ b.pieces, i.target? = some (.plain y.1.name) := by
  obtain ⟨r, hr, ht, -⟩ := (h.passes.suits hi).1.call hc
  obtain ⟨y, hy, rfl⟩ := List.mem_map.1 (b.routines_eq ▸ hr : r ∈ b.pieces.map fun x => x.1)
  exact ⟨y, hy, ht⟩

variable (b)

mutual

/-- What lies below the words of a body that runs: nothing at top level, and in a call the frame of
the caller, which waits. The calls that run are listed by their numbers, the innermost first. -/
inductive Below (calls : List String) :
    Option (Routine × Frame × List Item) → List (Cell W) → List Nat → Prop where
  | top : Below calls none [] []
  | routine {x : Routine × Frame × List Item} {stack : List (Cell W)} {base args : Nat}
      {running : List Nat}
      (h : Waits calls x stack base running) :
      Below calls (some x) (.link base args :: stack) running

/-- The routine has been called and has no frame: on the stack lies the place behind the call, where
its caller goes on. -/
inductive Waits (calls : List String) :
    Routine × Frame × List Item → List (Cell W) → Nat → List Nat → Prop where
  | intro {x : Routine × Frame × List Item} {ρ : Option (Routine × Frame × List Item)} {o k n : Nat}
      {i : Instruction}
      {ws : List W} {below : List (Cell W)} {running : List Nat} (ho : b.Starts ρ o)
      (hi : (inner p ρ)[k]? = some i) (hc : i.opcode = .call)
      (ht : i.target? = some (.plain x.1.name))
      (hws : ws.length = (pointAt (inner p ρ) (k + 1)).height + slots ρ)
      (hb : Below calls ρ below running)
      (hn : calls[n]? = some x.1.name) :
      Waits calls x (.back (o + k + 1) :: (ws.map .word ++ below)) below.length (n :: running)

end

/-- The machine runs a body, and its next instruction is the `k`-th. On the stack lie the words of
the body, its slots, and what waits. -/
structure At (calls : List String) (c : State W I) (ρ : Option (Routine × Frame × List Item))
    (o k : Nat) (running : List Nat) : Prop where
  starts : b.Starts ρ o
  lt : k < (inner p ρ).length
  pc : c.pc = o + k
  stack : ∃ (ws : List W) (below : List (Cell W)), c.stack = ws.map .word ++ below ∧
    c.base = below.length ∧
    ws.length = (pointAt (inner p ρ) k).height + slots ρ ∧ b.Below calls ρ below running

/-- Where the machine is, with the calls that run, whether a result has just been stored, and
whether the innermost call has come to its end. -/
inductive Stage (calls : List String) (c : State W I) : List Nat → Bool → Bool → Prop where
  | boot (hpc : c.pc = 0) (hs : c.stack = []) (hb : c.base = 0) : Stage calls c [] false false
  | body {ρ : Option (Routine × Frame × List Item)} {o k : Nat} {running : List Nat}
      (h : b.At calls c ρ o k running) :
      Stage calls c running (pointAt (inner p ρ) k).given (k + 1 = (inner p ρ).length)
  | entering {x : Routine × Frame × List Item} {entry : Nat} {running : List Nat}
      (hx : x ∈ b.pieces)
      (h : x.2.1.Spot x.2.2 p.listing entry) (hpc : c.pc = entry)
      (hw : b.Waits calls x c.stack c.base running) :
      Stage calls c running false false
  | leaving {x : Routine × Frame × List Item} {entry : Nat} {running : List Nat} (hx : x ∈ b.pieces)
      (h : x.2.1.Spot x.2.2 p.listing entry) (hpc : c.pc = entry + 1 + (x.2.1.inner x.2.2).length)
      (hw : b.Waits calls x c.stack c.base running) : Stage calls c running false true

/-- What one step can do to the calls that run and to their results, with the stage it comes to. -/
inductive Turn (calls : List String) (c' : State W I) (e : Event) (running : List Nat) :
    Bool → Bool → Prop where
  | goes {closing closing' : Bool} (he : e = .plain ∨ ∃ g ∈ b.layout.globals.names, e = .store g)
      (hc : closing = true → closing' = true) (h : b.Stage calls c' running false closing') :
      Turn calls c' e running false closing
  | gives {x : Routine × Frame × List Item} {n : Nat} {rest : List Nat} {closing' : Bool}
      (hx : x ∈ b.pieces)
      (hr : running = n :: rest) (hn : calls[n]? = some x.1.name)
      (he : e = .store (Label.result x.1.name).text)
      (h : b.Stage calls c' running true closing') : Turn calls c' e running false false
  | leaves {n : Nat} {rest : List Nat} (hr : running = n :: rest) (he : e = .leave)
      (h : b.Stage calls c' running false true) : Turn calls c' e running true false
  | enters {y : Routine × Frame × List Item} (hy : y ∈ b.pieces) (he : e = .call y.1.name)
      (h : b.Stage (calls ++ [y.1.name]) c' (calls.length :: running) false false) :
      Turn calls c' e running false false
  | returns {n : Nat} {rest : List Nat} {closing' : Bool} (hr : running = n :: rest) (he : e = .ret)
      (h : b.Stage calls c' rest false closing') : Turn calls c' e running false true

variable {b} {calls : List String} {running : List Nat} {below stack : List (Cell W)} {base : Nat}
  {x : Routine × Frame × List Item}

mutual

/-- More calls can be made above what waits. -/
theorem Below.append (d : List String) :
    ∀ {ρ : Option (Routine × Frame × List Item)} {below : List (Cell W)}
    {running : List Nat}, b.Below calls ρ below running → b.Below (calls ++ d) ρ below running
  | _, _, _, .top => .top
  | _, _, _, .routine h => .routine (h.append d)

theorem Waits.append (d : List String) :
    ∀ {x : Routine × Frame × List Item} {stack : List (Cell W)} {base : Nat}
    {running : List Nat}, b.Waits calls x stack base running →
    b.Waits (calls ++ d) x stack base running
  | _, _, _, _, .intro ho hi hc ht hws hb hn =>
    .intro ho hi hc ht hws (hb.append d)
      (by rwa [List.getElem?_append_left (List.getElem?_eq_some_iff.1 hn).1])

end

/-- A routine that waits runs in a call of its own. -/
theorem Waits.running_eq (h : b.Waits calls x stack base running) :
    ∃ n rest, running = n :: rest ∧ calls[n]? = some x.1.name := by
  cases h with
  | intro _ _ _ _ _ _ hn => exact ⟨_, _, rfl, hn⟩

theorem Below.running_eq (h : b.Below calls (some x) below running) :
    ∃ n rest, running = n :: rest ∧ calls[n]? = some x.1.name := by
  cases h with
  | routine h => exact h.running_eq

/-- A routine that waits has been called, and its caller goes on behind the call. -/
theorem Waits.site (h : b.Waits calls x stack base running) :
    ∃ site rest, stack = .back (site + 1) :: rest ∧
    Does p.listing site (.on .call (.target (.plain x.1.name))) := by
  cases h with
  | @intro _ ρ o k _ i _ _ _ ho hi hc ht _ _ _ =>
    obtain ⟨j, hj, hop, hx⟩ := (ho.placed.get hi).1
    exact ⟨o + k, _, rfl, j, hj, hop.trans hc, hx.trans (operand_of_target? ht)⟩

section Steps

variable [DecidableEq W] {M : Words W I} {c c' : State W I} {k : Nat} {i : Instruction}

theorem At.ordinary (h : b.At calls c ρ o k running) (hi : (inner p ρ)[k]? = some i)
    (ho : i.opcode.isOrdinary = true) (hk : k + 1 < (inner p ρ).length)
    (he : execute M p.listing { c with pc := c.pc + 1 } i.opcode i.operand = some c') :
    b.At calls c' ρ o (k + 1) running ∧
      ∀ text, (∀ l ∈ i.stores?, text ≠ l.text) → c'.static text = c.static text := by
  obtain ⟨ws, below, hs, hb, hws, hbelow⟩ := h.stack
  have henough := (h.starts.passes.suits hi).1.enough
  have hw := works_of_execute ho he hs hb (by omega)
  obtain ⟨ws', hs', hlen⟩ := hw.stack
  refine ⟨⟨h.starts, hk, ?_, ws', below, hs', hw.base.trans hb, ?_, hbelow⟩, hw.static⟩
  · rw [hw.pc, h.pc]
    rfl
  · rw [hlen, pointAt_succ hi, Point.height_next]
    omega

/-- A branch leads to a label of the body, or to the next instruction, and a `return` to the end. -/
theorem At.branch (h : b.At calls c ρ o k running) (hi : (inner p ρ)[k]? = some i)
    (ho : i.opcode.isBranch = true) (hk : k + 1 < (inner p ρ).length)
    (he : execute M p.listing { c with pc := c.pc + 1 } i.opcode i.operand = some c') :
    c'.static = c.static ∧ ∃ m, b.At calls c' ρ o m running ∧
    (pointAt (inner p ρ) m).given = false ∧
      (i.leaves?.isSome = true → m + 1 = (inner p ρ).length) := by
  obtain ⟨ws, below, hs, hb, hws, hbelow⟩ := h.stack
  obtain ⟨hsuits, -⟩ := h.starts.passes.suits hi
  have hpops := hsuits.branch ho
  obtain ⟨l, hl, ht⟩ := h.starts.branch_target (List.mem_of_getElem? hi) ho
  obtain ⟨j, hj, hjl⟩ := List.mem_filterMap.1 hl
  obtain ⟨m, hm⟩ := List.mem_iff_getElem?.1 hj
  have hrest := (h.starts.passes.suits hm).2 (by rw [hjl]; rfl)
  have hpos := (h.starts.placed.get hm).2 l hjl
  obtain ⟨hpc, hbase, hstatic, ws', hs', hlen⟩ := execute_branch ho ht hpos he hs (by omega)
  refine ⟨hstatic, ?_⟩
  rcases hpc with hpc | ⟨hbr, hpc⟩
  · refine ⟨m, ⟨h.starts, (List.getElem?_eq_some_iff.1 hm).1, hpc, ws', below, hs', hbase.trans hb,
      ?_, hbelow⟩, ?_, ?_⟩
    · rw [hrest]
      show _ = 0 + _
      omega
    · rw [hrest]
      rfl
    · intro hleaves
      obtain ⟨f, hf⟩ := Option.isSome_iff_exists.1 hleaves
      obtain rfl := Option.some.inj ((Instruction.of_leaves? hf).2.symm.trans ht)
      exact h.starts.exit_position hi hf hpos
  · have hnext : pointAt (inner p ρ) (k + 1) = .rest :=
      (pointAt_succ hi).trans (hsuits.next_of_branch ho)
    refine ⟨k + 1, ⟨h.starts, hk, ?_, ws', below, hs', hbase.trans hb, ?_, hbelow⟩, ?_, ?_⟩
    · rw [hpc, h.pc]
      rfl
    · rw [hnext]
      show _ = 0 + _
      omega
    · rw [hnext]
      rfl
    · intro hleaves
      obtain ⟨f, hf⟩ := Option.isSome_iff_exists.1 hleaves
      exact absurd (Instruction.of_leaves? hf).1 hbr

/-- A call leaves the body waiting. -/
theorem At.call (h : b.At calls c ρ o k running) (hi : (inner p ρ)[k]? = some i)
    (ho : i.opcode = .call) (hn : s.Named)
    (he : execute M p.listing { c with pc := c.pc + 1 } i.opcode i.operand = some c') :
    c'.static = c.static ∧ ∃ y ∈ b.pieces, i.event = .call y.1.name ∧
      b.Stage (calls ++ [y.1.name]) c' (calls.length :: running) false false := by
  obtain ⟨ws, below, hs, hb, hws, hbelow⟩ := h.stack
  obtain ⟨y, hy, ht⟩ := h.starts.callee hi ho
  obtain ⟨entry, hspot⟩ := b.exists_spot hn hy
  have hstart : position? p.listing (Label.plain y.1.name).text = some entry := by
    rw [← (b.routine_eq_of_mem hy).1]
    exact hspot.starts
  have hx := operand_of_target? ht
  rw [ho] at he
  obtain rfl := execute_call hx hstart he
  have hevent : i.event = .call y.1.name := by
    rw [Instruction.event, ho, hx]
    rfl
  have hnext : (pointAt (inner p ρ) (k + 1)).height = (pointAt (inner p ρ) k).height := by
    rw [pointAt_succ hi, Point.height_next, Instruction.pops, Instruction.pushes, ho]
    rfl
  have hwaits : b.Waits (calls ++ [y.1.name]) y
      (.back (o + k + 1) :: (ws.map .word ++ below)) below.length
      (calls.length :: running) :=
    .intro h.starts hi ho ht (by rw [hnext, hws]) (hbelow.append _) (by simp)
  refine ⟨rfl, y, hy, hevent, .entering hy hspot rfl ?_⟩
  show b.Waits _ y (.back (c.pc + 1) :: c.stack) c.base _
  rw [h.pc, hs, hb]
  exact hwaits

/-- Leaving drops the words and slots of the body. -/
theorem At.leave (h : b.At calls c (some x) o k running) (hk : k + 1 = (inner p (some x)).length)
    (he : execute M p.listing { c with pc := c.pc + 1 } .leave none = some c') :
    c'.static = c.static ∧ b.Stage calls c' running false true := by
  obtain ⟨ws, below, hs, hb, hws, hbelow⟩ := h.stack
  cases hbelow with
  | routine hw =>
    obtain ⟨hpc, hstatic, hbase, hstack⟩ := execute_leave (c := { c with pc := c.pc + 1 }) hs hb he
    refine ⟨hstatic, ?_⟩
    cases h.starts with
    | routine hx hspot =>
      refine .leaving hx hspot ?_ ?_
      · rw [hpc, h.pc, ← show _ = (x.2.1.inner x.2.2).length from hk]
        rfl
      · rw [hstack, hbase]
        exact hw

/-- A routine that is entered begins at rest above its slots. -/
theorem turn_enter (hx : x ∈ b.pieces) {entry : Nat} (hspot : x.2.1.Spot x.2.2 p.listing entry)
    (hpc : c.pc = entry) (hw : b.Waits calls x c.stack c.base running)
    (he : execute M p.listing { c with pc := c.pc + 1 } .enter (some (.imm x.2.1.size)) = some c') :
    c'.static = c.static ∧ b.At calls c' (some x) (entry + 1) 0 running := by
  obtain ⟨hpc', hstatic, hbase, args, hstack⟩ := execute_enter he
  refine ⟨hstatic, .routine hx hspot, ?_, ?_, _, _, hstack, hbase, ?_, .routine hw⟩
  · rw [inner, Frame.inner, List.length_append]
    exact Nat.succ_pos _
  · rw [hpc', hpc]
  · rw [List.length_replicate, pointAt_zero]
    exact (Nat.zero_add _).symm

/-- The caller goes on behind its call. No body ends with a call, so that there is an instruction to
go on with. -/
theorem turn_ret (hw : b.Waits calls x c.stack c.base running)
    (he : execute M p.listing { c with pc := c.pc + 1 } .ret none = some c') :
    c'.static = c.static ∧ ∃ n rest closing, running = n :: rest ∧
    b.Stage calls c' rest false closing := by
  generalize hstack : c.stack = stack at hw
  generalize hbase : c.base = base at hw
  cases hw with
  | @intro x ρ o k n i ws below rest ho hi hc ht hws hb hn =>
    obtain rfl := execute_ret (c := { c with pc := c.pc + 1 }) hstack he
    have hk : k + 1 < (inner p ρ).length := by
      rcases ho.inner_cases hi with ⟨-, hk⟩ | ⟨y, -, rfl, -⟩ | ⟨-, hstop⟩
      · exact hk
      · simp [Instruction.labelled, Instruction.bare] at hc
      · simp [hc] at hstop
    have hat : b.At calls { c with pc := o + k + 1, stack := ws.map .word ++ below } ρ o
        (k + 1) rest :=
      ⟨ho, hk, rfl, ws, below, rfl, hbase, hws, hb⟩
    have hgiven : (pointAt (inner p ρ) (k + 1)).given = false := by
      rw [pointAt_succ hi, Point.next, Instruction.gives?, hc]
      rfl
    have hstage := Stage.body hat
    rw [hgiven] at hstage
    exact ⟨rfl, n, rest, _, rfl, hstage⟩

theorem At.turn_ordinary (h : b.At calls c ρ o k running) (hi : (inner p ρ)[k]? = some i)
    (ho : i.opcode.isOrdinary = true) (hk : k + 1 < (inner p ρ).length)
    (he : execute M p.listing { c with pc := c.pc + 1 } i.opcode i.operand = some c') :
    (∀ text, i.event ≠ .store text → c'.static text = c.static text) ∧
      b.Turn calls c' i.event running false false := by
  obtain ⟨hat, hstatic⟩ := h.ordinary hi ho hk he
  refine ⟨fun text ht => hstatic text fun l hl hlt => ht (hlt ▸ Instruction.event_eq_store hl), ?_⟩
  have hstage := Stage.body hat
  have hgiven : (pointAt (inner p ρ) (k + 1)).given = i.gives?.isSome := by
    rw [pointAt_succ hi]
    rfl
  rw [hgiven] at hstage
  cases hl : i.stores? with
  | none =>
    rw [Instruction.gives?_eq_none fun f => by simp [hl]] at hstage
    exact .goes (.inl (Instruction.event_of_ordinary ho hl)) nofun hstage
  | some l =>
    have hevent := Instruction.event_eq_store hl
    rcases h.starts.stored (List.mem_of_getElem? hi) hl with ⟨f, hf, rfl⟩ | ⟨g, hg, rfl⟩
    · obtain ⟨x, rfl, rfl⟩ := Option.map_eq_some_iff.1 ((h.starts.passes.suits hi).1.gives f hf)
      obtain ⟨ws, below, -, -, -, hbelow⟩ := h.stack
      obtain ⟨n, rest, hr, hn⟩ := hbelow.running_eq
      rw [hf] at hstage
      exact .gives (h.starts.mem x rfl) hr hn hevent hstage
    · rw [Instruction.gives?_eq_none fun f => by simp [hl]] at hstage
      exact .goes (.inr ⟨g, hg, hevent⟩) nofun hstage

theorem At.turn_branch (h : b.At calls c ρ o k running) (hi : (inner p ρ)[k]? = some i)
    (ho : i.opcode.isBranch = true) (hk : k + 1 < (inner p ρ).length)
    (he : execute M p.listing { c with pc := c.pc + 1 } i.opcode i.operand = some c') :
    c'.static = c.static ∧ b.Turn calls c' i.event running i.leaves?.isSome false := by
  obtain ⟨hstatic, m, hat, hgiven, hlast⟩ := h.branch hi ho hk he
  refine ⟨hstatic, ?_⟩
  have hevent := Instruction.event_of_branch ho
  have hstage := Stage.body hat
  rw [hgiven] at hstage
  cases hl : i.leaves? with
  | none =>
    rw [hl] at hevent
    exact .goes (.inl hevent) nofun hstage
  | some f =>
    rw [hl] at hevent hlast
    obtain ⟨x, rfl, rfl⟩ := Option.map_eq_some_iff.1 ((h.starts.passes.suits hi).1.leaves f hl)
    obtain ⟨ws, below, -, -, -, hbelow⟩ := h.stack
    obtain ⟨n, rest, hr, -⟩ := hbelow.running_eq
    rw [decide_eq_true (hlast rfl)] at hstage
    exact .leaves hr hevent hstage

/-- What a body does next. A result has just been stored exactly if the instruction is the branch
that follows it. -/
theorem At.turn (h : b.At calls c ρ o k running) (hi : (inner p ρ)[k]? = some i) (hn : s.Named)
    (he : execute M p.listing { c with pc := c.pc + 1 } i.opcode i.operand = some c') :
    (∀ text, i.event ≠ .store text → c'.static text = c.static text) ∧
      b.Turn calls c' i.event running (pointAt (inner p ρ) k).given
        (k + 1 = (inner p ρ).length) := by
  rw [(h.starts.passes.suits hi).1.given]
  rcases h.starts.inner_cases hi with ⟨hbody, hk⟩ | ⟨x, rfl, rfl, hk⟩ | ⟨rfl, hstop⟩
  · rw [decide_eq_false (Nat.ne_of_lt hk)]
    simp only [Opcode.isBody, Bool.or_eq_true, decide_eq_true_eq] at hbody
    rcases hbody with (ho | ho) | ho
    · rw [Instruction.leaves?_eq_none (Opcode.isBranch_of_ordinary ho)]
      exact h.turn_ordinary hi ho hk he
    · obtain ⟨hstatic, hturn⟩ := h.turn_branch hi ho hk he
      exact ⟨fun text _ => by rw [hstatic], hturn⟩
    · obtain ⟨hstatic, y, hy, hevent, hstage⟩ := h.call hi ho hn he
      rw [Instruction.leaves?_eq_none (by rw [ho]; rfl)]
      exact ⟨fun text _ => by rw [hstatic], .enters hy hevent hstage⟩
  · obtain ⟨hstatic, hstage⟩ := h.leave hk he
    rw [decide_eq_true hk]
    exact ⟨fun text _ => by rw [hstatic], .goes (.inl rfl) id hstage⟩
  · rw [hstop] at he
    simp [execute] at he

/-- The step lemma: what the machine does at each stage, and which stage it comes to. -/
theorem Stage.turn {given closing : Bool} (h : b.Stage calls c running given closing) (hn : s.Named)
    (hi : p.listing[c.pc]? = some i) (hs : step M p.listing c = some c') :
    (∀ text, i.event ≠ .store text → c'.static text = c.static text) ∧
      b.Turn calls c' i.event running given closing := by
  have view : ∀ {j : Instruction}, Does p.listing c.pc j → i.event = j.event ∧
      execute M p.listing { c with pc := c.pc + 1 } j.opcode j.operand = some c' := by
    rintro j hd
    have he := (step_eq hd).symm.trans hs
    obtain ⟨i', hi', ho, hx⟩ := hd
    obtain rfl := Option.some.inj (hi.symm.trans hi')
    exact ⟨Instruction.event_congr ho hx, he⟩
  cases h with
  | boot hpc hstack hbase =>
    obtain ⟨a, hstarts, hpos, hlen⟩ := b.exists_starts_top hn
    obtain ⟨hevent, he⟩ :=
      view (j := .on .br (.target (.plain Label.entry))) ⟨_, by rw [hpc]; rfl, rfl, rfl⟩
    obtain rfl := execute_br rfl hpos he
    have hat : b.At calls { c with pc := a } none a 0 [] :=
      ⟨hstarts, hlen, rfl, [], [], hstack, hbase, rfl, .top⟩
    rw [hevent]
    exact ⟨fun _ _ => rfl, .goes (.inl rfl) nofun (.body hat)⟩
  | body hat =>
    obtain ⟨j, hj⟩ : ∃ j, (inner p _)[_]? = some j := ⟨_, List.getElem?_eq_getElem hat.lt⟩
    obtain ⟨hevent, he⟩ := view (hat.pc ▸ (hat.starts.placed.get hj).1)
    rw [hevent]
    exact hat.turn hj hn he
  | entering hx hspot hpc hw =>
    obtain ⟨hevent, he⟩ := view (hpc ▸ hspot.enter)
    obtain ⟨hstatic, hat⟩ := turn_enter hx hspot hpc hw he
    rw [hevent]
    exact ⟨fun _ _ => by rw [hstatic], .goes (.inl rfl) nofun (.body hat)⟩
  | leaving hx hspot hpc hw =>
    obtain ⟨hevent, he⟩ := view (hpc ▸ hspot.ret)
    obtain ⟨hstatic, n, rest, closing', hr, hstage⟩ := turn_ret hw he
    rw [hevent]
    exact ⟨fun _ _ => by rw [hstatic], .returns hr rfl hstage⟩

end Steps

end Build
end TreeAsm
