import TreeAsm.Proofs.Placement

/-! States of the machine that represent stores of a script: the static cells hold the globals and
the results, and the slots of the current frame hold the variables of the call. One rule for each
instruction says how it leads from such a state to the next. -/
namespace TreeAsm
open Code

/-- One run of a body on the machine: the frame of its routine and what lies on the stack below the
slots. -/
structure Activation (W : Type) where
  frame : Option Frame
  below : List (Cell W)
  args : Nat

variable {W I : Type}

/-- The slots hold the variables. -/
structure Activation.Slots (act : Activation W) (locals : String → W) (slots : List W) : Prop where
  length_eq : slots.length = act.frame.elim 0 Frame.size
  get : ∀ f ∈ act.frame, ∀ n k, f.slot? n = some k → slots[k]? = some (locals n)

namespace Build

variable {s : Script} {source : String} {seed : Nat} {p : Program}

/-- The machine is at position `a` of the activation, with `temps` on the stack above the slots. -/
structure Represents (b : Build s source seed p) (act : Activation W) (a : Nat) (temps : List W)
    (st : Store W I) (c : State W I) : Prop where
  pc : c.pc = a
  stack : ∃ slots, act.Slots st.locals slots ∧
    c.stack = temps.map .word ++ (slots.reverse.map .word ++ act.below)
  base : c.base = act.below.length
  args : c.args = act.args
  globals : ∀ g ∈ b.layout.globals.names, c.static g = some (st.globals g)
  results : ∀ f ∈ b.layout.frames, c.static (Label.result f.routine).text =
    some (st.results f.routine)
  input : c.input = st.input
  output : c.output = st.output

/-- What the names in a body mean, for the script and for the generator. -/
inductive Context (b : Build s source seed p) : Option Routine → Option Frame → Env → Prop where
  | top : b.Context none none b.layout.topEnv
  | routine {x : Routine × Frame × List Item} (hx : x ∈ b.pieces) :
      b.Context (some x.1) (some x.2.1) (b.layout.routineEnv x.2.1)

variable (b : Build s source seed p)

/-- The script and the frame agree on the names of a routine's own. -/
theorem own_iff {x : Routine × Frame × List Item} (hx : x ∈ b.pieces) {n : String} :
    s.own (some x.1) n = true ↔ ∃ k, x.2.1.slot? n = some k := by
  obtain ⟨-, -, hl⟩ := b.routine_eq_of_mem hx
  have hs : (∃ k, x.2.1.slot? n = some k) ↔ n ∈ x.2.1.locals.names := by
    simp only [Frame.slot?_eq_some_iff, List.mem_iff_getElem?]
  rw [hs, hl, Scope.mem_names_localsOf, b.globals_eq, Scope.mem_names_globals]
  simp only [Script.own, Bool.or_eq_true, Bool.and_eq_true, Bool.not_eq_true', decide_eq_true_eq,
    decide_eq_false_iff_not]

/-- The generator finds the frame of every routine by its name. -/
theorem exists_piece {r : Routine} (hr : r ∈ s.routines) :
    ∃ x ∈ b.pieces, x.1 = r ∧ Frame.lookup b.layout.frames r.name = some x.2.1 := by
  rw [← b.routines_eq] at hr
  obtain ⟨x, hx, rfl⟩ := List.mem_map.1 hr
  refine ⟨x, hx, rfl, ?_⟩
  have hf : x.2.1 ∈ b.layout.frames := b.frames_eq ▸ List.mem_map_of_mem hx
  have hname := (b.routine_eq_of_mem hx).1
  cases hl : Frame.lookup b.layout.frames x.1.name with
  | none =>
    have hnone := List.find?_eq_none.1 hl x.2.1 (by simpa using hf)
    simp [hname] at hnone
  | some g =>
    obtain ⟨hg, hgn⟩ := Frame.mem_of_lookup hl
    rw [← b.frames_eq] at hg
    obtain ⟨y, hy, rfl⟩ := List.mem_map.1 hg
    rw [b.eq_of_routine_eq hx hy (hname.trans hgn.symm)]

theorem lookup_eq_none {name : String} (h : s.hasRoutine name = false) :
    Frame.lookup b.layout.frames name = none := by
  cases hl : Frame.lookup b.layout.frames name with
  | none => rfl
  | some g =>
    obtain ⟨hg, rfl⟩ := Frame.mem_of_lookup hl
    rw [← b.frames_eq] at hg
    obtain ⟨y, hy, rfl⟩ := List.mem_map.1 hg
    obtain ⟨hn, hr, -⟩ := b.routine_eq_of_mem hy
    simp only [Script.hasRoutine, List.any_eq_false, decide_eq_true_eq] at h
    exact absurd hn.symm (h y.1 hr)

theorem result_text_ne (hn : s.Named) {g : String} (hg : g ∈ b.layout.globals.names) {f : Frame}
    (hf : f ∈ b.layout.frames) : (Label.result f.routine).text ≠ g := by
  have hmg : Label.plain g ∈ b.namedLabels := List.mem_append_left _ (List.mem_map_of_mem hg)
  have hmf : Label.result f.routine ∈ b.namedLabels :=
    List.mem_append_right
      _ (List.mem_cons_of_mem _ (List.mem_flatMap.2 ⟨f, hf, List.mem_cons_self⟩))
  intro h
  have := Label.text_injective (b.proper_of_mem_namedLabels hn _ hmf)
    (b.proper_of_mem_namedLabels hn _ hmg) h
  simp at this

theorem result_text_injective {r r' : String}
    (h : (Label.result r).text = (Label.result r').text) : r = r' := by
  have ht := congrArg String.toList h
  rw [Label.toList_text, Label.toList_text] at ht
  exact String.toList_inj.1 (List.append_cancel_right ht)

section Context

variable {b : Build s source seed p} {ρ : Option Routine} {frame : Option Frame} {env : Env}

/-- A name is a global of that name, or a slot of the routine with an offset that the machine
knows. -/
theorem Context.resolve_cases (h : b.Context ρ frame env) (hn : s.Named) {n : String}
    {loc : Location} (hl : env.resolve n = some loc) :
    (s.own ρ n = false ∧ n ∈ b.layout.globals.names ∧ loc = .static (.plain n)) ∨
      (s.own ρ n = true ∧ ∃ f ∈ frame, ∃ k, f.slot? n = some k ∧
        equate? p.listing (Label.slot f.routine n).text = some k ∧
          loc = .frame (.slot f.routine n) k) := by
  cases h with
  | top =>
    obtain ⟨hg, rfl⟩ := Layout.mem_globals_of_staticCell? hl
    exact .inl ⟨rfl, hg, rfl⟩
  | @routine x hx =>
    rcases Option.or_eq_some_iff.1 hl with hl | ⟨hnone, hl⟩
    · obtain ⟨k, hk, rfl⟩ := Frame.resolve?_eq_some hl
      obtain ⟨entry, stop, hsite⟩ := b.exists_site hn hx
      exact .inr ⟨(b.own_iff hx).2 ⟨k, hk⟩, x.2.1, rfl, k, hk, hsite.equates n k hk, rfl⟩
    · obtain ⟨hg, rfl⟩ := Layout.mem_globals_of_staticCell? hl
      refine .inl ⟨?_, hg, rfl⟩
      rw [← Bool.not_eq_true, b.own_iff hx]
      rintro ⟨k, hk⟩
      simp [Frame.resolve?, hk] at hnone

theorem Context.callee_eq (h : b.Context ρ frame env) :
    env.callee = Frame.lookup b.layout.frames := by
  cases h <;> rfl

end Context

namespace Represents

variable {b : Build s source seed p} {act : Activation W} {a : Nat} {temps : List W}
  {st : Store W I}
  {c : State W I} {w : W}

theorem moveTo (h : b.Represents act a temps st c) (z : Nat) :
    b.Represents act z temps st { c with pc := z } :=
  ⟨rfl, h.stack, h.base, h.args, h.globals, h.results, h.input, h.output⟩

theorem push (h : b.Represents act a temps st c) (w : W) :
    b.Represents act a (w :: temps) st (c.push w) := by
  obtain ⟨slots, hs, hc⟩ := h.stack
  have hstack : (c.push w).stack =
      (w :: temps).map .word ++ (slots.reverse.map .word ++ act.below) :=
    congrArg (Cell.word w :: ·) hc
  exact ⟨h.pc, ⟨slots, hs, hstack⟩, h.base, h.args, h.globals, h.results, h.input, h.output⟩

theorem pop (h : b.Represents act a (w :: temps) st c) :
    ∃ c', c.pop? = some (w, c') ∧ b.Represents act a temps st c' := by
  obtain ⟨slots, hs, hc⟩ := h.stack
  refine ⟨{ c with stack := temps.map .word ++ (slots.reverse.map .word ++ act.below) }, ?_, ?_⟩
  · rw [State.pop?, hc]
    rfl
  · exact ⟨h.pc, ⟨slots, hs, rfl⟩, h.base, h.args, h.globals, h.results, h.input, h.output⟩

/-- The height of a slot does not depend on what lies above. -/
theorem word?_slot (h : b.Represents act a temps st c) {f : Frame} (hf : f ∈ act.frame) {n : String}
    {k : Nat} (hk : f.slot? n = some k) : c.word? (c.base + k) = some (st.locals n) := by
  obtain ⟨slots, hs, hc⟩ := h.stack
  have hget := hs.get f hf n k hk
  have hlt := (List.getElem?_eq_some_iff.1 hget).1
  have hcell : c.stack.reverse[act.below.length + k]? = some (.word (st.locals n)) := by
    rw [hc]
    simp only [List.reverse_append, ← List.map_reverse, List.reverse_reverse, List.append_assoc]
    rw [List.getElem?_append_right (by simp), List.getElem?_append_left (by simpa using hlt)]
    simpa using hget
  rw [State.word?, h.base, hcell]

theorem load? (h : b.Represents act a temps st c) (M : Words W I) (hn : s.Named)
    {ρ : Option Routine} {env : Env} (hctx : b.Context ρ act.frame env) {n : String}
    {loc : Location} (hl : env.resolve n = some loc) :
    c.load? M p.listing (.mem loc) = some (st.get (s.own ρ) n) := by
  rcases hctx.resolve_cases hn hl with ⟨ho, hg, rfl⟩ | ⟨ho, f, hf, k, hk, he, rfl⟩
  · simpa [State.load?, Label.text, Store.get, ho] using h.globals n hg
  · simp [State.load?, he, Store.get, ho, h.word?_slot hf hk]

/-- A global or a result is stored; the other static cells stay as they are. -/
theorem store?_static (h : b.Represents act a temps st c) {l : Label} {st' : Store W I}
    (hcell : (c.static l.text).isSome = true) (hlocals : st'.locals = st.locals)
    (hinput : st'.input = st.input) (houtput : st'.output = st.output)
    (hglobals : ∀ g ∈ b.layout.globals.names, Function.update c.static l.text (some w) g =
      some (st'.globals g))
    (hresults : ∀ f ∈ b.layout.frames, Function.update c.static l.text (some w)
      (Label.result f.routine).text = some (st'.results f.routine)) :
    ∃ c', c.store? p.listing w (.static l) = some c' ∧ b.Represents act a temps st' c' := by
  refine ⟨{ c with static := Function.update c.static l.text (some w) },
    by simp [State.store?, hcell], ?_⟩
  exact ⟨h.pc, hlocals ▸ h.stack, h.base, h.args, hglobals, hresults, h.input.trans hinput.symm,
    h.output.trans houtput.symm⟩

theorem store?_global (h : b.Represents act a temps st c) (hn : s.Named) {g : String}
    (hg : g ∈ b.layout.globals.names) : ∃ c', c.store? p.listing w (.static (.plain g)) = some c' ∧
      b.Represents act a temps { st with globals := Function.update st.globals g w } c' := by
  refine h.store?_static ?_ rfl rfl rfl ?_ ?_
  · rw [Label.text, h.globals g hg]
    rfl
  · intro g' hg'
    by_cases he : g' = g
    · subst he
      simp [Label.text]
    · simp [Label.text, Function.update_of_ne he, h.globals g' hg']
  · intro f hf
    have hne := b.result_text_ne hn hg hf
    rw [Label.text, Function.update_of_ne hne]
    exact h.results f hf

theorem store?_result (h : b.Represents act a temps st c) (hn : s.Named) {f : Frame}
    (hf : f ∈ b.layout.frames) :
    ∃ c', c.store? p.listing w f.resultCell = some c' ∧
      b.Represents act a temps (st.give f.routine w) c' := by
  refine h.store?_static ?_ rfl rfl rfl ?_ ?_
  · rw [h.results f hf]
    rfl
  · intro g hg
    have hne := b.result_text_ne hn hg hf
    rw [Function.update_of_ne hne.symm]
    exact h.globals g hg
  · intro f' hf'
    by_cases he : f'.routine = f.routine
    · simp [he, Store.give]
    · have hne : (Label.result f'.routine).text ≠ (Label.result f.routine).text :=
        fun ht => he (result_text_injective ht)
      simp only [Store.give, Function.update_of_ne hne, Function.update_of_ne he]
      exact h.results f' hf'

theorem store?_slot (h : b.Represents act a temps st c) {f : Frame} (hf : f ∈ act.frame)
    {n : String} {k : Nat} (hk : f.slot? n = some k)
    (he : equate? p.listing (Label.slot f.routine n).text = some k) :
    ∃ c', c.store? p.listing w (.frame (.slot f.routine n) k) = some c' ∧
      b.Represents act a temps { st with locals := Function.update st.locals n w } c' := by
  obtain ⟨slots, hs, hc⟩ := h.stack
  have hlt := (List.getElem?_eq_some_iff.1 (hs.get f hf n k hk)).1
  have hbound : c.base + k < c.stack.length := by
    rw [h.base, hc]
    simp only [List.length_append, List.length_map, List.length_reverse]
    omega
  have hset : (c.stack.reverse.set (c.base + k) (.word w)).reverse =
      temps.map .word ++ ((slots.set k w).reverse.map .word ++ act.below) := by
    rw [h.base, hc]
    simp only [List.reverse_append, ← List.map_reverse, List.reverse_reverse, List.append_assoc]
    rw [List.set_append_right _ _ (by simp), List.set_append_left _ _ (by simpa using hlt)]
    simp [← List.map_set, ← List.map_reverse]
  refine ⟨{ c with stack := temps.map .word ++ ((slots.set k w).reverse.map .word ++ act.below) },
    ?_, ?_⟩
  · simp [State.store?, he, hbound, hset]
  · refine ⟨h.pc, ⟨_, ⟨by simpa using hs.length_eq, ?_⟩, rfl⟩, h.base, h.args, h.globals,
      h.results, h.input, h.output⟩
    intro g hg m j hj
    obtain rfl : g = f := Option.some.inj ((Option.mem_def.1 hg).symm.trans (Option.mem_def.1 hf))
    by_cases hm : m = n
    · subst hm
      obtain rfl : j = k := Option.some.inj (hj.symm.trans hk)
      simp [hlt]
    · have hjk : k ≠ j := by
        rintro rfl
        have hnames := (Frame.slot?_eq_some_iff.1 hj).symm.trans (Frame.slot?_eq_some_iff.1 hk)
        exact hm (Option.some.inj hnames)
      simp only [List.getElem?_set_ne hjk, Function.update_of_ne hm]
      exact hs.get g hg m j hj

theorem store? (h : b.Represents act a temps st c) (hn : s.Named) {ρ : Option Routine} {env : Env}
    (hctx : b.Context ρ act.frame env) {n : String} {loc : Location}
    (hl : env.resolve n = some loc) :
    ∃ c', c.store? p.listing w loc = some c' ∧
      b.Represents act a temps (st.set (s.own ρ) n w) c' := by
  rcases hctx.resolve_cases hn hl with ⟨ho, hg, rfl⟩ | ⟨ho, f, hf, k, hk, he, rfl⟩
  · simpa [Store.set, ho] using h.store?_global hn hg
  · simpa [Store.set, ho] using h.store?_slot hf hk he

end Represents

section Leads

variable [DecidableEq W] {b : Build s source seed p} {M : Words W I}
  {act : Activation W} {a y z : Nat}
  {temps temps₁ temps' : List W} {st st₁ st' : Store W I} {v w : W}

/-- From every state that represents the one store the machine comes to a state that represents the
other. -/
def Leads (b : Build s source seed p) (M : Words W I) (act : Activation W) (a : Nat)
    (temps : List W) (st : Store W I) (z : Nat) (temps' : List W) (st' : Store W I) : Prop :=
  ∀ c, b.Represents act a temps st c → ∃ c', Reaches M p.listing c c' ∧
    b.Represents act z temps' st' c'

theorem Leads.refl : b.Leads M act a temps st a temps st := fun c h => ⟨c, .refl, h⟩

theorem Leads.trans (h : b.Leads M act a temps st y temps₁ st₁)
    (h' : b.Leads M act y temps₁ st₁ z temps' st') : b.Leads M act a temps st z temps' st' := by
  intro c hc
  obtain ⟨c₁, hr, hc₁⟩ := h c hc
  obtain ⟨c₂, hr', hc₂⟩ := h' c₁ hc₁
  exact ⟨c₂, hr.trans hr', hc₂⟩

theorem step_eq {c : State W I} {i : Instruction} (hd : Does p.listing c.pc i) :
    step M p.listing c = execute M p.listing { c with pc := c.pc + 1 } i.opcode i.operand := by
  obtain ⟨j, hj, ho, ht⟩ := hd
  rw [step, hj, ← ho, ← ht]
  rfl

/-- It is enough to look at the instruction at the position. -/
theorem leads_of_execute {i : Instruction} (hd : Does p.listing a i)
    (h : ∀ c, b.Represents act (a + 1) temps st c →
      ∃ c', execute M p.listing c i.opcode i.operand = some c' ∧ b.Represents act z temps' st' c') :
    b.Leads M act a temps st z temps' st' := by
  intro c hc
  obtain ⟨c', he, hc'⟩ := h _ (hc.moveTo (a + 1))
  have hpc := hc.pc
  subst hpc
  exact ⟨c', .single (by rw [step_eq hd, he]), hc'⟩

theorem leads_push {o : Operand} (hd : Does p.listing a (.on .push o))
    (h : ∀ c, b.Represents act (a + 1) temps st c → c.load? M p.listing o = some w) :
    b.Leads M act a temps st (a + 1) (w :: temps) st := by
  refine leads_of_execute hd fun c hc => ⟨c.push w, ?_, hc.push w⟩
  simp only [Instruction.on, execute, h c hc, Option.map_some]

theorem leads_load (hn : s.Named) {ρ : Option Routine} {env : Env}
    (hctx : b.Context ρ act.frame env) {n : String} {loc : Location} (hl : env.resolve n = some loc)
    (hd : Does p.listing a (.on .push (.mem loc))) :
    b.Leads M act a temps st (a + 1) (st.get (s.own ρ) n :: temps) st :=
  leads_push hd fun _ hc => hc.load? M hn hctx hl

theorem leads_fetch {f : Frame} (hf : f ∈ b.layout.frames)
    (hd : Does p.listing a (.on .push (.mem f.resultCell))) :
    b.Leads M act a temps st (a + 1) (st.results f.routine :: temps) st :=
  leads_push hd fun _ hc => hc.results f hf

/-- A word is taken off the stack and stored. -/
theorem leads_pop {loc : Location} (hd : Does p.listing a (.on .pop (.mem loc)))
    (h : ∀ c, b.Represents act (a + 1) temps st c →
      ∃ c', c.store? p.listing w loc = some c' ∧ b.Represents act (a + 1) temps st' c') :
    b.Leads M act a (w :: temps) st (a + 1) temps st' := by
  refine leads_of_execute hd fun c hc => ?_
  obtain ⟨c₁, hp, hc₁⟩ := hc.pop
  obtain ⟨c₂, hs, hc₂⟩ := h c₁ hc₁
  refine ⟨c₂, ?_, hc₂⟩
  simp only [Instruction.on, execute, hp, Option.bind_some, hs]

theorem leads_store (hn : s.Named) {ρ : Option Routine} {env : Env}
    (hctx : b.Context ρ act.frame env) {n : String} {loc : Location} (hl : env.resolve n = some loc)
    (hd : Does p.listing a (.on .pop (.mem loc))) :
    b.Leads M act a (w :: temps) st (a + 1) temps (st.set (s.own ρ) n w) :=
  leads_pop hd fun _ hc => hc.store? hn hctx hl

theorem leads_give (hn : s.Named) {f : Frame} (hf : f ∈ b.layout.frames)
    (hd : Does p.listing a (.on .pop (.mem f.resultCell))) :
    b.Leads M act a (w :: temps) st (a + 1) temps (st.give f.routine w) :=
  leads_pop hd fun _ hc => hc.store?_result hn hf

theorem leads_binary {op : BinaryOp} (hd : Does p.listing a (.bare op.opcode)) :
    b.Leads M act a (w :: v :: temps) st (a + 1) (M.binary op v w :: temps) st := by
  refine leads_of_execute hd fun c hc => ?_
  have he : execute M p.listing c op.opcode none = c.combine? (M.binary op) := by cases op <;> rfl
  obtain ⟨slots, hs, hstack⟩ := hc.stack
  refine ⟨{ c with stack := (M.binary op v w :: temps).map .word ++
    (slots.reverse.map .word ++ act.below) }, ?_, ?_⟩
  · simp only [Instruction.bare]
    rw [he, State.combine?, hstack]
    rfl
  · exact ⟨hc.pc, ⟨slots, hs, rfl⟩, hc.base, hc.args, hc.globals, hc.results, hc.input, hc.output⟩

theorem leads_unary {op : UnaryOp} (hd : Does p.listing a (.bare op.opcode)) :
    b.Leads M act a (v :: temps) st (a + 1) (M.unary op v :: temps) st := by
  refine leads_of_execute hd fun c hc => ?_
  have he : execute M p.listing c op.opcode none = c.transform? (M.unary op) := by cases op <;> rfl
  obtain ⟨slots, hs, hstack⟩ := hc.stack
  refine ⟨{ c with stack := (M.unary op v :: temps).map .word ++
    (slots.reverse.map .word ++ act.below) }, ?_, ?_⟩
  · simp only [Instruction.bare]
    rw [he, State.transform?, hstack]
    rfl
  · exact ⟨hc.pc, ⟨slots, hs, rfl⟩, hc.base, hc.args, hc.globals, hc.results, hc.input, hc.output⟩

theorem leads_jump {l : Label} (hd : Does p.listing a (.on .br (.target l)))
    (hl : position? p.listing l.text = some z) : b.Leads M act a temps st z temps st := by
  refine leads_of_execute hd fun c hc => ⟨_, ?_, hc.moveTo z⟩
  simp only [Instruction.on, execute, State.jump?, hl, Option.map_some]

/-- A branch is taken on zero. -/
theorem leads_branch_zero {l : Label} (hd : Does p.listing a (.on .brf (.target l)))
    (hw : w = M.ofInt 0) (hl : position? p.listing l.text = some z) :
    b.Leads M act a (w :: temps) st z temps st := by
  refine leads_of_execute hd fun c hc => ?_
  obtain ⟨c₁, hp, hc₁⟩ := hc.pop
  refine ⟨_, ?_, hc₁.moveTo z⟩
  simp only [Instruction.on, execute, hp, Option.bind_some, if_pos hw, State.jump?, hl,
    Option.map_some]

theorem leads_branch_ne {l : Label} (hd : Does p.listing a (.on .brf (.target l)))
    (hw : w ≠ M.ofInt 0) : b.Leads M act a (w :: temps) st (a + 1) temps st := by
  refine leads_of_execute hd fun c hc => ?_
  obtain ⟨c₁, hp, hc₁⟩ := hc.pop
  refine ⟨c₁, ?_, hc₁⟩
  simp only [Instruction.on, execute, hp, Option.bind_some, if_neg hw]

theorem leads_drop {vs : List W} (hd : Does p.listing a (.on .addsp (.imm vs.length))) :
    b.Leads M act a (vs ++ temps) st (a + 1) temps st := by
  refine leads_of_execute hd fun c hc => ?_
  obtain ⟨slots, hs, hstack⟩ := hc.stack
  have hstack : c.stack =
      vs.map .word ++ (temps.map .word ++ (slots.reverse.map .word ++ act.below)) := by
    rw [hstack, List.map_append, List.append_assoc]
  have hlen : vs.length ≤ c.stack.length := by
    rw [hstack, List.length_append, List.length_map]
    omega
  refine ⟨{ c with stack := c.stack.drop vs.length }, ?_, ?_⟩
  · exact if_pos hlen
  · refine ⟨hc.pc, ⟨slots, hs, ?_⟩, hc.base, hc.args, hc.globals, hc.results, hc.input, hc.output⟩
    show c.stack.drop vs.length = _
    rw [hstack]
    exact List.drop_left' (List.length_map ..)

theorem leads_read (hd : Does p.listing a (.bare .deci)) {rest : I}
    (hr : M.read st.input = some (v, rest)) :
    b.Leads M act a temps st (a + 1) (v :: temps) { st with input := rest } := by
  refine leads_of_execute hd fun c hc => ⟨{ c with input := rest }.push v, ?_, ?_⟩
  · simp only [Instruction.bare, execute, hc.input, hr, Option.map_some]
  · have hc' : b.Represents act (a + 1) temps { st with input := rest } { c with input := rest } :=
      ⟨hc.pc, hc.stack, hc.base, hc.args, hc.globals, hc.results, rfl, hc.output⟩
    exact hc'.push v

theorem leads_print (hd : Does p.listing a (.bare .deco)) :
    b.Leads M act a (v :: temps) st (a + 1) temps (st.print v) := by
  refine leads_of_execute hd fun c hc => ?_
  obtain ⟨c₁, hp, hc₁⟩ := hc.pop
  refine ⟨{ c₁ with output := c₁.output ++ [v] }, ?_, ?_⟩
  · simp only [Instruction.bare, execute, hp, Option.map_some]
  · exact ⟨hc₁.pc, hc₁.stack, hc₁.base, hc₁.args, hc₁.globals, hc₁.results, hc₁.input,
      congrArg (· ++ [v]) hc₁.output⟩

theorem leads_nop (hd : Does p.listing a (.bare .nop)) :
    b.Leads M act a temps st (a + 1) temps st :=
  leads_of_execute hd fun c hc => ⟨c, rfl, hc⟩

theorem leads_skip (h : Skips p.listing a z) : b.Leads M act a temps st z temps st := by
  rcases h with rfl | ⟨hd, rfl⟩
  · exact .refl
  · exact leads_nop hd

end Leads
end Build
end TreeAsm
