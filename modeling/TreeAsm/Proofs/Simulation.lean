import TreeAsm.Proofs.Representation
import TreeAsm.Proofs.Written

/-! The machine does what the script says. The code of an expression leads to a state with one more
word on the stack, that of a statement to one with the stack as before; a call comes back to the
frame of the caller. -/
namespace TreeAsm
open Code

variable {W I : Type} {s : Script} {source : String} {seed : Nat} {p : Program}

namespace Build

section Call

variable {b : Build s source seed p} {M : Words W I} {act : Activation W} {a : Nat} {temps : List W}
  {st : Store W I} {c : State W I}

/-- The arguments of a call lie below the place to return to. -/
theorem Represents.load?_arg (h : b.Represents act a temps st c) {base args back : Nat}
    {vs : List W} {rest : List (Cell W)}
    (hb : act.below = .link base args :: .back back :: (vs.reverse.map .word ++ rest))
    (ha : act.args = vs.length) {k : Nat} {v : W} (hk : vs[k]? = some v) :
    c.load? M p.listing (.arg k) = some v := by
  obtain ⟨slots, -, hc⟩ := h.stack
  have hlt := (List.getElem?_eq_some_iff.1 hk).1
  have hheight : c.base - 2 - c.args + k = rest.length + k := by
    rw [h.base, h.args, ha, hb]
    simp only [List.length_cons, List.length_append, List.length_map, List.length_reverse]
    omega
  have hcell : c.stack.reverse[rest.length + k]? = some (.word v) := by
    rw [hc, hb]
    simp only [List.reverse_append, List.reverse_cons, ← List.map_reverse, List.reverse_reverse,
      List.append_assoc]
    rw [List.getElem?_append_right (by simp), List.getElem?_append_left (by simpa using hlt)]
    simpa using hk
  rw [State.load?, hheight, State.word?, hcell]

variable [DecidableEq W]

/-- The arguments go into the slots of the parameters, one after another. -/
theorem leads_bindings {x : Routine × Frame × List Item} (hx : x ∈ b.pieces) (hn : s.Named)
    (hf : act.frame = some x.2.1) {base args back : Nat} {vs : List W} {rest : List (Cell W)}
    (hb : act.below = .link base args :: .back back :: (vs.reverse.map .word ++ rest))
    (ha : act.args = vs.length) (hlen : vs.length = x.2.1.params.length) {names : List String}
    {k : Nat} (hk : names = x.2.1.params.drop k) (locals : String → W)
    (hp : Placed p.listing a ((names.zipIdx k).flatMap fun y => x.2.1.bindParam y.1 y.2)) :
    b.Leads M act a [] { st with locals }
      (a + ((names.zipIdx k).flatMap fun y => x.2.1.bindParam y.1 y.2).length) []
      { st with
        locals :=
          (names.zip (vs.drop k)).foldl (fun l y => Function.update l y.1 y.2) locals } := by
  obtain ⟨entry, stop, hsite⟩ := b.exists_site hn hx
  obtain ⟨-, -, hlocals⟩ := b.routine_eq_of_mem hx
  induction names generalizing k a locals with
  | nil => exact .refl
  | cons n r ih =>
    have hget : x.2.1.params[k]? = some n := by
      have := congrArg List.head? hk
      rwa [List.head?_drop, List.head?_cons, eq_comm] at this
    have hr : r = x.2.1.params.drop (k + 1) := by
      have := congrArg List.tail hk
      rwa [List.tail_drop, List.tail_cons] at this
    have hlt : k < vs.length := hlen ▸ (List.getElem?_eq_some_iff.1 hget).1
    have hslot := Frame.slot?_param hlocals hget
    rw [List.zipIdx_cons, List.flatMap_cons, Frame.bindParam_eq hslot] at hp ⊢
    obtain ⟨⟨hpush, -⟩, ⟨hpop, -⟩, hrest⟩ := hp
    rw [List.drop_eq_getElem_cons hlt, List.zip_cons_cons, List.foldl_cons, List.length_append]
    have h₁ : b.Leads M act a [] { st with locals } (a + 1) [vs[k]] { st with locals } :=
      leads_push hpush fun _ hc => hc.load?_arg hb ha (List.getElem?_eq_getElem hlt)
    have h₂ : b.Leads M act (a + 1) [vs[k]] { st with locals } (a + 1 + 1) []
        { st with locals := Function.update locals n vs[k] } :=
      leads_pop hpop fun _ hc => hc.store?_slot (hf ▸ rfl) hslot (hsite.equates n k hslot)
    have h₃ := ih hr (Function.update locals n vs[k]) hrest
    have hpos : a + (2 + ((r.zipIdx (k + 1)).flatMap fun y => x.2.1.bindParam y.1 y.2).length) =
        a + 1 + 1 + ((r.zipIdx (k + 1)).flatMap fun y => x.2.1.bindParam y.1 y.2).length := by omega
    exact hpos ▸ (h₁.trans h₂).trans h₃

/-- The activation of a call with its arguments on top of the caller's stack. -/
def callee (f : Frame) (c : State W I) (back : Nat) : Activation W where
  frame := some f
  below := .link c.base c.args :: .back back :: c.stack
  args := f.arity

/-- A call enters the routine with blank variables. -/
theorem exists_entered {x : Routine × Frame × List Item} {entry stop : Nat}
    (hsite : x.2.1.Site x.2.2 p.listing entry stop) (hc : b.Represents act a temps st c)
    (hd : Does p.listing a (.on .call (.target (.plain x.2.1.routine)))) :
    ∃ c', Reaches M p.listing c c' ∧
      b.Represents (callee x.2.1 c (a + 1)) (entry + 1) []
        { st with locals := fun _ => M.blank } c' := by
  have hpc := hc.pc
  subst hpc
  let called : State W I := { c with pc := entry, stack := .back (c.pc + 1) :: c.stack }
  let entered : State W I := { called with
    pc := entry + 1
    stack := List.replicate x.2.1.size (.word M.blank) ++ .link c.base c.args :: called.stack
    base := called.stack.length + 1
    args := argumentCount (p.listing.drop (entry + 1)) }
  have hcall : step M p.listing c = some called := by
    rw [step_eq hd]
    simp only [Instruction.on, execute, State.jump?, Label.text, hsite.starts, Option.map_some]
    rfl
  have henter : step M p.listing called = some entered := by
    rw [step_eq (c := called) hsite.enter]
    rfl
  refine ⟨entered, .head hcall (.single henter), rfl, ?_, rfl, hsite.args, hc.globals,
    hc.results, hc.input, hc.output⟩
  refine ⟨List.replicate x.2.1.size M.blank, ⟨List.length_replicate, fun f hf n k hk => ?_⟩, ?_⟩
  · obtain rfl : x.2.1 = f := Option.some.inj hf
    exact List.getElem?_replicate_of_lt (Frame.slot?_lt hk)
  · show List.replicate x.2.1.size (.word M.blank) ++ .link c.base c.args :: called.stack = _
    rw [List.reverse_replicate, List.map_replicate]
    rfl

/-- Leaving a routine gives the caller its frame back. -/
theorem exists_left {x : Routine × Frame × List Item} {entry stop back : Nat}
    (hsite : x.2.1.Site x.2.2 p.listing entry stop) (hc : b.Represents act a temps st c)
    {st₂ : Store W I} {c₂ : State W I} (hc₂ : b.Represents (callee x.2.1 c back) stop [] st₂ c₂) :
    ∃ c', Reaches M p.listing c₂ c' ∧
      b.Represents act back temps { st₂ with locals := st.locals } c' := by
  obtain ⟨slots, -, hstack⟩ := hc₂.stack
  have hpc := hc₂.pc
  have hbelow : c₂.stack.drop (c₂.stack.length - c₂.base) =
      .link c.base c.args :: .back back :: c.stack := by
    rw [hc₂.base, hstack, List.map_nil, List.nil_append]
    have hlen : (slots.reverse.map Cell.word ++ (callee x.2.1 c back).below).length -
        (callee x.2.1 c back).below.length = (slots.reverse.map (Cell.word (W := W))).length := by
      rw [List.length_append]
      omega
    rw [hlen, List.drop_left]
    rfl
  let left : State W I :=
    { c₂ with pc := stop + 1, stack := .back back :: c.stack, base := c.base, args := c.args }
  let returned : State W I := { left with pc := back, stack := c.stack }
  have hleave : step M p.listing c₂ = some left := by
    subst hpc
    rw [step_eq hsite.leave]
    simp only [Instruction.bare, execute, hbelow]
    rfl
  have hret : step M p.listing left = some returned := by
    rw [step_eq (c := left) hsite.ret]
    rfl
  exact ⟨returned, .head hleave (.single hret), rfl, hc.stack, hc.base, hc.args,
    hc₂.globals, hc₂.results, hc₂.input, hc₂.output⟩

/-- A call runs the body on variables that the arguments are bound to, and comes back to the
caller. -/
theorem leads_call (hn : s.Named) {x : Routine × Frame × List Item} (hx : x ∈ b.pieces)
    {entry stop : Nat} (hsite : x.2.1.Site x.2.2 p.listing entry stop) {vs : List W}
    (hlen : vs.length = x.1.formals.length)
    (hd : Does p.listing a (.on .call (.target (.plain x.2.1.routine)))) {st₂ : Store W I}
    (hbody : ∀ act' : Activation W, act'.frame = some x.2.1 →
      b.Leads M act' (entry + 1 + x.2.1.bindings.length) []
        { st with locals := x.1.bind M vs } stop [] st₂) :
    b.Leads M act a (vs.reverse ++ temps) st (a + 1) (vs.reverse ++ temps)
      { st₂ with locals := st.locals } := by
  intro c hc
  obtain ⟨-, -, hlocals⟩ := b.routine_eq_of_mem hx
  have hparams : x.2.1.params = x.1.formals := Frame.params_eq hlocals
  obtain ⟨slots, -, hstack⟩ := hc.stack
  have hbelow : (callee x.2.1 c (a + 1)).below = .link c.base c.args :: .back (a + 1) ::
      (vs.reverse.map .word ++ (temps.map .word ++ (slots.reverse.map .word ++ act.below))) := by
    rw [callee, hstack, List.map_append, List.append_assoc]
  have harity : (callee x.2.1 c (a + 1)).args = vs.length := by
    rw [hlen, ← hparams]
    rfl
  have hbind : b.Leads M (callee x.2.1 c (a + 1)) (entry + 1) []
      { st with locals := fun _ => M.blank }
      (entry + 1 + x.2.1.bindings.length) [] { st with locals := x.1.bind M vs } := by
    rw [Routine.bind, ← hparams]
    exact leads_bindings hx hn rfl hbelow harity (hparams ▸ hlen) (k := 0) rfl _ hsite.bindings
  obtain ⟨c₁, hr₁, hc₁⟩ := exists_entered (M := M) hsite hc hd
  obtain ⟨c₂, hr₂, hc₂⟩ := hbind c₁ hc₁
  obtain ⟨c₃, hr₃, hc₃⟩ := hbody _ rfl c₂ hc₂
  obtain ⟨c₄, hr₄, hc₄⟩ := exists_left (M := M) hsite hc hc₃
  exact ⟨c₄, hr₁.trans (hr₂.trans (hr₃.trans hr₄)), hc₄⟩

end Call

section Rules

open Lowering

variable [DecidableEq W] (b : Build s source seed p) (M : Words W I)

/-- The code of the expression leaves its value on the stack, or nothing where it stands for its
effect. -/
def Computes (ρ : Option Routine) (st : Store W I) (e : Expr) (v : W) (st' : Store W I) : Prop :=
  ∀ (act : Activation W) (env : Env) (line : UInt32) (items : List Item) (a z : Nat)
    (temps : List W), b.Context ρ act.frame env → Laid p.listing a items z →
    ((expr env line e).Writes b.final.strings.entries items →
      b.Leads M act a temps st z (v :: temps) st') ∧
    ((discard env line e).Writes b.final.strings.entries items →
      b.Leads M act a temps st z temps st')

/-- The last value is on top. -/
def ComputesAll (ρ : Option Routine) (st : Store W I) (es : List Expr) (vs : List W)
    (st' : Store W I) : Prop :=
  vs.length = es.length ∧
  ∀ (act : Activation W) (env : Env) (line : UInt32) (items : List Item) (a z : Nat)
    (temps : List W), b.Context ρ act.frame env → Laid p.listing a items z →
    (exprs env line es).Writes b.final.strings.entries items →
    b.Leads M act a temps st z (vs.reverse ++ temps) st'

/-- The code of a call without the fetching of the result leaves the stack as it was. -/
def Invokes (ρ : Option Routine) (st : Store W I) (func : String) (args : List Expr)
    (st' : Store W I) : Prop :=
  (∃ r ∈ s.routines, r.name = func) ∧
  ∀ (act : Activation W) (env : Env) (line : UInt32) (items : List Item) (f : Frame) (a z : Nat)
    (temps : List W), b.Context ρ act.frame env → env.callee func = some f →
    (exprs env line args).Writes b.final.strings.entries items →
    Laid p.listing a (items ++ callItems f args.length false) z →
    b.Leads M act a temps st z temps st'

/-- Where a statement ends: behind its code, or at the end of the routine. -/
def Ends (p : Program) (env : Env) (o : Outcome) (z q : Nat) : Prop :=
  match o with
  | .next => q = z
  | .returned =>
    ∃ cell exit, env.result = some (cell, exit) ∧ position? p.listing exit.text = some q

def Performs (ρ : Option Routine) (st : Store W I) (x : Stmt) (o : Outcome)
    (st' : Store W I) : Prop :=
  ∀ (act : Activation W) (env : Env) (items : List Item) (a z q : Nat), b.Context ρ act.frame env →
    Laid p.listing a items z → (stmt env x).Writes b.final.strings.entries items →
    Ends p env o z q → b.Leads M act a [] st q [] st'

def PerformsAll (ρ : Option Routine) (st : Store W I) (xs : List Stmt) (o : Outcome)
    (st' : Store W I) : Prop :=
  ∀ (act : Activation W) (env : Env) (items : List Item) (a z q : Nat), b.Context ρ act.frame env →
    Laid p.listing a items z → (stmts env xs).Writes b.final.strings.entries items →
    Ends p env o z q → b.Leads M act a [] st q [] st'

variable {b M} {ρ : Option Routine} {st st₁ st₂ st' : Store W I} {v w : W}

/-- An expression other than a call is dropped after its evaluation. -/
theorem computes_of_not_call {e : Expr} (he : ∀ func args, e ≠ .call func args)
    (h : ∀ (act : Activation W) (env : Env) (line : UInt32) (items : List Item) (a z : Nat)
      (temps : List W), b.Context ρ act.frame env → Laid p.listing a items z →
        (expr env line e).Writes b.final.strings.entries items →
          b.Leads M act a temps st z (v :: temps) st') :
    b.Computes M ρ st e v st' := by
  intro act env line items a z temps hctx hlaid
  refine ⟨h act env line items a z temps hctx hlaid, fun hw => ?_⟩
  rcases writes_discard hw with ⟨func, args, rfl, -⟩ | ⟨-, i, hi, rfl⟩
  · exact absurd rfl (he func args)
  · obtain ⟨y, hy, hz⟩ := hlaid.split
    obtain ⟨hd, hz⟩ := hz.split_op
    obtain rfl := hz.split_nil
    have hdrop : b.Leads M act y ([v] ++ temps) st' (y + 1) temps st' := leads_drop hd
    exact (h act env line i a y temps hctx hy hi).trans hdrop

theorem computes_literal (hn : s.Named) (v : Literal) :
    b.Computes M ρ st (.literal v) (M.literal (M.address p.listing) v) st := by
  refine computes_of_not_call (by simp) fun act env line items a z temps hctx hlaid hw => ?_
  cases v with
  | int n =>
    obtain rfl := writes_on hw
    obtain ⟨hd, hz⟩ := hlaid.split_op
    exact hz.split_nil ▸ leads_push hd fun _ _ => rfl
  | real x =>
    obtain rfl := writes_on hw
    obtain ⟨hd, hz⟩ := hlaid.split_op
    exact hz.split_nil ▸ leads_push hd fun _ _ => rfl
  | bool t =>
    obtain rfl := writes_on hw
    obtain ⟨hd, hz⟩ := hlaid.split_op
    exact hz.split_nil ▸ leads_push hd fun _ _ => rfl
  | str t =>
    obtain ⟨n, hm, rfl⟩ := writes_text hw
    obtain ⟨k, hl, hc⟩ := b.exists_constant hn hm
    obtain ⟨hd, hz⟩ := hlaid.split_op
    refine hz.split_nil ▸ leads_push hd fun c _ => ?_
    simp [State.load?, hl, Words.literal, Words.address, hc]

theorem computes_name (hn : s.Named) (n : String) :
    b.Computes M ρ st (.name n) (st.get (s.own ρ) n) st := by
  refine computes_of_not_call (by simp) fun act env line items a z temps hctx hlaid hw => ?_
  obtain ⟨loc, hl, rfl⟩ := writes_name hw
  obtain ⟨hd, hz⟩ := hlaid.split_op
  exact hz.split_nil ▸ leads_load hn hctx hl hd

theorem computes_binary {l r : Expr} (op : BinaryOp) (hl : b.Computes M ρ st l v st₁)
    (hr : b.Computes M ρ st₁ r w st') :
    b.Computes M ρ st (.binary op l r) (M.binary op v w) st' := by
  refine computes_of_not_call (by simp) fun act env line items a z temps hctx hlaid hw => ?_
  obtain ⟨i₁, i₂, h₁, h₂, rfl⟩ := writes_binary hw
  obtain ⟨y₁, hy₁, hlaid⟩ := hlaid.split
  obtain ⟨y₂, hy₂, hlaid⟩ := hlaid.split
  obtain ⟨hd, hz⟩ := hlaid.split_op
  have hleft := (hl act env line i₁ a y₁ temps hctx hy₁).1 h₁
  have hright := (hr act env line i₂ y₁ y₂ (v :: temps) hctx hy₂).1 h₂
  exact hz.split_nil ▸ (hleft.trans hright).trans (leads_binary hd)

theorem computes_unary {e : Expr} (op : UnaryOp) (h : b.Computes M ρ st e v st') :
    b.Computes M ρ st (.unary op e) (M.unary op v) st' := by
  refine computes_of_not_call (by simp) fun act env line items a z temps hctx hlaid hw => ?_
  obtain ⟨i, hi, rfl⟩ := writes_unary hw
  obtain ⟨y, hy, hlaid⟩ := hlaid.split
  obtain ⟨hd, hz⟩ := hlaid.split_op
  have hoperand := (h act env line i a y temps hctx hy).1 hi
  exact hz.split_nil ▸ hoperand.trans (leads_unary hd)

theorem callItems_true (f : Frame) (count : Nat) :
    callItems f count true = callItems f count false ++ [.op (.on .push (.mem f.resultCell))] := by
  simp [callItems]

/-- The routine that a call of a known name goes to. -/
theorem callee_of_mem {frame : Option Frame} {env : Env} (hctx : b.Context ρ frame env)
    {func : String} (h : ∃ r ∈ s.routines, r.name = func) :
    ∃ f ∈ b.layout.frames, f.routine = func ∧ env.callee func = some f := by
  obtain ⟨r, hr, rfl⟩ := h
  obtain ⟨x, hx, rfl, hl⟩ := b.exists_piece hr
  refine ⟨x.2.1, b.frames_eq ▸ List.mem_map_of_mem hx, (b.routine_eq_of_mem hx).1, ?_⟩
  rw [hctx.callee_eq, hl]

theorem computes_call {func : String} {args : List Expr} (h : b.Invokes M ρ st func args st') :
    b.Computes M ρ st (.call func args) (st'.results func) st' := by
  intro act env line items a z temps hctx hlaid
  obtain ⟨f, hf, rfl, hcallee⟩ := callee_of_mem hctx h.1
  constructor
  · intro hw
    rcases writes_call hw with ⟨g, i, hg, -, hi, rfl⟩ | ⟨hnone, -⟩ | ⟨hnone, -⟩
    · obtain rfl : g = f := Option.some.inj (hg.symm.trans hcallee)
      rw [callItems_true, ← List.append_assoc] at hlaid
      obtain ⟨y, hy, hlaid⟩ := hlaid.split
      obtain ⟨hd, hz⟩ := hlaid.split_op
      have hcall := h.2 act env line i g a y temps hctx hcallee hi hy
      exact hz.split_nil ▸ hcall.trans (leads_fetch hf hd)
    · simp [hcallee] at hnone
    · simp [hcallee] at hnone
  · intro hw
    rcases writes_discard hw with ⟨func, args', he, hw⟩ | ⟨hne, -⟩
    · obtain ⟨rfl, rfl⟩ := Expr.call.inj he
      rcases writes_call hw with ⟨g, i, hg, -, hi, rfl⟩ | ⟨hnone, -⟩ | ⟨hnone, -⟩
      · obtain rfl : g = f := Option.some.inj (hg.symm.trans hcallee)
        exact h.2 act env line i g a z temps hctx hcallee hi hlaid
      · simp [hcallee] at hnone
      · simp [hcallee] at hnone
    · exact absurd rfl (hne _ _)

theorem computes_input (hf : s.hasRoutine "input" = false) {rest : I}
    (hr : M.read st.input = some (v, rest)) :
    b.Computes M ρ st (.call "input" []) v { st with input := rest } := by
  intro act env line items a z temps hctx hlaid
  have hnone : env.callee "input" = none := by rw [hctx.callee_eq, b.lookup_eq_none hf]
  constructor
  · intro hw
    rcases writes_call hw with ⟨g, i, hg, -⟩ | ⟨-, hp, -⟩ | ⟨-, -, -, rfl⟩
    · simp [hnone] at hg
    · simp at hp
    · obtain ⟨hd, hz⟩ := hlaid.split_op
      exact hz.split_nil ▸ leads_read hd hr
  · intro hw
    rcases writes_discard hw with ⟨func, args, he, hw⟩ | ⟨hne, -⟩
    · obtain ⟨rfl, rfl⟩ := Expr.call.inj he
      rcases writes_call hw with ⟨g, i, hg, -⟩ | ⟨-, hp, -⟩ | ⟨-, -, -, rfl⟩
      · simp [hnone] at hg
      · simp at hp
      · obtain ⟨hd, hlaid⟩ := hlaid.split_op
        obtain ⟨hd', hz⟩ := hlaid.split_op
        have hdrop : b.Leads M act (a + 1) ([v] ++ temps) { st with input := rest }
            (a + 1 + 1) temps
            { st with input := rest } := leads_drop hd'
        exact hz.split_nil ▸ (leads_read hd hr).trans hdrop
    · exact absurd rfl (hne _ _)

theorem computesAll_nil : b.ComputesAll M ρ st [] [] st := by
  refine ⟨rfl, ?_⟩
  intro act env line items a z temps _ hlaid hw
  obtain rfl := writes_exprs_nil hw
  exact hlaid.split_nil ▸ .refl

theorem computesAll_cons {e : Expr} {r : List Expr} {vs : List W} (h : b.Computes M ρ st e v st₁)
    (hr : b.ComputesAll M ρ st₁ r vs st') : b.ComputesAll M ρ st (e :: r) (v :: vs) st' := by
  refine ⟨by rw [List.length_cons, List.length_cons, hr.1], ?_⟩
  intro act env line items a z temps hctx hlaid hw
  obtain ⟨i₁, i₂, h₁, h₂, rfl⟩ := writes_exprs_cons hw
  obtain ⟨y, hy, hz⟩ := hlaid.split
  have hfirst := (h act env line i₁ a y temps hctx hy).1 h₁
  have hrest := hr.2 act env line i₂ y z (v :: temps) hctx hz h₂
  rw [List.reverse_cons, List.append_assoc]
  exact hfirst.trans hrest

/-- The arguments of a call are dropped, if there are any. -/
theorem leads_dropAll {act : Activation W} {a z count : Nat} {temps vs : List W}
    (hc : vs.length = count)
    (h : Laid p.listing a (if count = 0 then [] else [.op (.on .addsp (.imm count))]) z) :
    b.Leads M act a (vs ++ temps) st z temps st := by
  subst hc
  split at h
  next h0 =>
    rw [List.length_eq_zero_iff.1 h0]
    exact h.split_nil ▸ .refl
  next =>
    obtain ⟨hd, hz⟩ := h.split_op
    exact hz.split_nil ▸ leads_drop hd

/-- A call does what its arguments and then the body of the routine do. However the body ends, it
ends at the label for the end of the routine. -/
theorem invokes_of_body (hn : s.Named) {r : Routine} (hr : r ∈ s.routines) {args : List Expr}
    {vs : List W} {o : Outcome} (ha : b.ComputesAll M ρ st args vs st₁)
    (hlen : vs.length = r.formals.length)
    (hbody : b.PerformsAll M (some r) { st₁ with locals := r.bind M vs } r.body o st₂) :
    b.Invokes M ρ st r.name args { st₂ with locals := st₁.locals } := by
  refine ⟨⟨r, hr, rfl⟩, ?_⟩
  intro act env line items f a z temps hctx hcallee hw hlaid
  obtain ⟨x, hx, rfl, hl⟩ := b.exists_piece hr
  obtain rfl : x.2.1 = f := by
    rw [hctx.callee_eq, hl] at hcallee
    exact Option.some.inj hcallee
  obtain ⟨entry, stop, hsite⟩ := b.exists_site hn hx
  obtain ⟨s₁, s₂, hy, hp⟩ := b.bodies.yields_of_mem hx
  obtain ⟨y, hargs, hlaid⟩ := hlaid.split
  obtain ⟨hd, hdrop⟩ := hlaid.split_op
  simp only [Bool.false_eq_true, if_false, List.append_nil] at hdrop
  have hends : Ends p (b.layout.routineEnv x.2.1) o stop stop := by
    cases o with
    | next => exact rfl
    | returned => exact ⟨_, _, rfl, hsite.ends⟩
  have hcall : b.Leads M act y (vs.reverse ++ temps) st₁ (y + 1) (vs.reverse ++ temps)
      { st₂ with locals := st₁.locals } := by
    refine leads_call hn hx hsite hlen hd fun act' hact => ?_
    exact hbody act' _ _ _ _ _ (hact ▸ .routine hx) hsite.body ⟨s₁, s₂, hy, hp⟩ hends
  have hvs : vs.reverse.length = args.length := by rw [List.length_reverse, ha.1]
  exact ((ha.2 act env line items a y temps hctx hargs hw).trans hcall).trans
    (leads_dropAll hvs hdrop)

theorem performs_assign (hn : s.Named) {e : Expr} (line : UInt32) (n : String)
    (h : b.Computes M ρ st e v st') :
    b.Performs M ρ st (.assign line [.name n] e) .next (st'.set (s.own ρ) n v) := by
  intro act env items a z q hctx hlaid hw hq
  obtain rfl : q = z := hq
  obtain ⟨id, loc, i, ht, hl, hi, rfl⟩ := writes_assign hw
  obtain rfl : n = id := by simpa using ht
  obtain ⟨y, hy, hlaid⟩ := hlaid.split
  obtain ⟨hd, hz⟩ := hlaid.split_op
  have hvalue := (h act env line i a y [] hctx hy).1 hi
  exact hz.split_nil ▸ hvalue.trans (leads_store hn hctx hl hd)

theorem performs_update (hn : s.Named) {e : Expr} (line : UInt32) (n : String) (op : BinaryOp)
    (h : b.Computes M ρ st e v st') : b.Performs M ρ st (.update line (.name n) op e) .next
      (st'.set (s.own ρ) n (M.binary op (st.get (s.own ρ) n) v)) := by
  intro act env items a z q hctx hlaid hw hq
  obtain rfl : q = z := hq
  obtain ⟨id, loc, i, ht, hl, hi, rfl⟩ := writes_update hw
  obtain rfl : n = id := by simpa using ht
  obtain ⟨hload, hlaid⟩ := hlaid.split_op
  obtain ⟨y, hy, hlaid⟩ := hlaid.split
  obtain ⟨hop, hlaid⟩ := hlaid.split_op
  obtain ⟨hstore, hz⟩ := hlaid.split_op
  have hold : b.Leads M act a [] st (a + 1) [st.get (s.own ρ) n] st := leads_load hn hctx hl hload
  have hvalue := (h act env line i (a + 1) y [st.get (s.own ρ) n] hctx hy).1 hi
  have hnew := (hold.trans hvalue).trans (leads_binary hop)
  exact hz.split_nil ▸ hnew.trans (leads_store hn hctx hl hstore)

theorem performs_eval {e : Expr} (line : UInt32) (h : b.Computes M ρ st e v st') :
    b.Performs M ρ st (.eval line e) .next st' := by
  intro act env items a z q hctx hlaid hw hq
  obtain rfl : q = z := hq
  exact (h act env line items a q [] hctx hlaid).2 hw

theorem performs_print {e : Expr} (line : UInt32) (hf : s.hasRoutine "print" = false)
    (h : b.Computes M ρ st e v st') :
    b.Performs M ρ st (.eval line (.call "print" [e])) .next (st'.print v) := by
  intro act env items a z q hctx hlaid hw hq
  obtain rfl : q = z := hq
  have hnone : env.callee "print" = none := by rw [hctx.callee_eq, b.lookup_eq_none hf]
  rcases writes_call hw with ⟨g, i, hg, -⟩ | ⟨-, -, -, e', i, he, hi, rfl⟩ | ⟨-, hp, -⟩
  · simp [hnone] at hg
  · obtain rfl : e = e' := by simpa using he
    obtain ⟨y, hy, hlaid⟩ := hlaid.split
    obtain ⟨hd, hz⟩ := hlaid.split_op
    have hvalue := (h act env line i a y [] hctx hy).1 hi
    exact hz.split_nil ▸ hvalue.trans (leads_print hd)
  · simp at hp

theorem performs_pass (line : UInt32) : b.Performs M ρ st (.pass line) .next st := by
  intro act env items a z q hctx hlaid hw hq
  obtain rfl : q = z := hq
  obtain ⟨s₁, s₂, hy, -⟩ := hw
  obtain ⟨-, rfl, -⟩ := Emit.yields_pure_iff.1 hy
  exact hlaid.split_nil ▸ .refl

/-- No code is generated for a definition that is not at the level of the script. -/
theorem performs_define (line : UInt32) (name : String) (params : List Param) (body : List Stmt) :
    b.Performs M ρ st (.define line name params body) .next st := by
  intro act env items a z q hctx hlaid hw hq
  obtain ⟨s₁, s₂, hy, -⟩ := hw
  exact absurd hy not_yields_unsupported

/-- Returning stores the value in the cell of the routine and goes to its end. -/
theorem performs_ret (hn : s.Named) {r : Routine} {value : Option Expr} (line : UInt32)
    (h : ∀ (act : Activation W) (env : Env) (items : List Item) (a z : Nat),
      b.Context (some r) act.frame env → Laid p.listing a items z →
        (returned env line value).Writes b.final.strings.entries items →
          b.Leads M act a [] st z [v] st') :
    b.Performs M (some r) st (.ret line value) .returned (st'.give r.name v) := by
  intro act env items a z q hctx hlaid hw hq
  obtain ⟨cell, exit, i, hr, hi, rfl⟩ := writes_ret hw
  obtain ⟨cell', exit', hr', hexit⟩ := hq
  obtain ⟨rfl, rfl⟩ := Prod.mk.inj (Option.some.inj (hr.symm.trans hr'))
  obtain ⟨y, hy, hlaid⟩ := hlaid.split
  obtain ⟨hgive, hlaid⟩ := hlaid.split_op
  obtain ⟨hjump, -⟩ := hlaid.split_op
  have hvalue := h act env i a y hctx hy hi
  generalize hframe : act.frame = frame at hctx
  generalize hρ : some r = ρ at hctx
  cases hctx with
  | top => simp at hρ
  | @routine x hx =>
    obtain rfl := Option.some.inj hρ
    obtain ⟨rfl, rfl⟩ := Prod.mk.inj (Option.some.inj hr)
    have hf : x.2.1 ∈ b.layout.frames := b.frames_eq ▸ List.mem_map_of_mem hx
    rw [← (b.routine_eq_of_mem hx).1]
    exact (hvalue.trans (leads_give hn hf hgive)).trans (leads_jump hjump hexit)

theorem performs_ret_some (hn : s.Named) {r : Routine} {e : Expr} (line : UInt32)
    (h : b.Computes M (some r) st e v st') :
    b.Performs M (some r) st (.ret line (some e)) .returned (st'.give r.name v) :=
  performs_ret hn line fun act env items a z hctx hlaid hw =>
    (h act env line items a z [] hctx hlaid).1 hw

theorem performs_ret_none (hn : s.Named) (r : Routine) (line : UInt32) :
    b.Performs M (some r) st (.ret line none) .returned (st.give r.name (M.ofInt 0)) := by
  refine performs_ret hn line fun act env items a z hctx hlaid hw => ?_
  obtain rfl := writes_on hw
  obtain ⟨hd, hz⟩ := hlaid.split_op
  exact hz.split_nil ▸ leads_push hd fun _ _ => rfl

/-- A conditional is left behind its code: a body that does not return goes on to the last label. -/
theorem Leads.of_ends {act : Activation W} {env : Env} {a y z q : Nat} {o : Outcome}
    (h : ∀ q', Ends p env o y q' → b.Leads M act a [] st q' [] st') (hq : Ends p env o z q)
    (hnext : o = .next → b.Leads M act y [] st' z [] st') : b.Leads M act a [] st q [] st' := by
  cases o with
  | next =>
    obtain rfl : q = z := hq
    exact (h y rfl).trans (hnext rfl)
  | returned => exact h q hq

theorem performs_ifTrue {test : Expr} {body : List Stmt} {o : Outcome} (line : UInt32)
    (orelse : List Stmt) (ht : b.Computes M ρ st test v st₁) (hv : v ≠ M.ofInt 0)
    (hb : b.PerformsAll M ρ st₁ body o st') :
    b.Performs M ρ st (.ifElse line test body orelse) o st' := by
  intro act env items a z q hctx hlaid hw hq
  obtain ⟨t, c, n, hwt, hwb, ⟨-, rfl⟩ | ⟨d, -, rfl⟩⟩ := writes_ifElse hw
  · obtain ⟨y₁, y₂, hy₁, hbranch, hy₂, -, hskip⟩ := hlaid.split_if
    have htest := (ht act env line t a y₁ [] hctx hy₁).1 hwt
    refine (htest.trans (leads_branch_ne hbranch hv)).trans ?_
    exact .of_ends (fun q' hq' => hb act env c (y₁ + 1) y₂ q' hctx hy₂ hwb hq') hq fun _ =>
      leads_skip hskip
  · obtain ⟨y₁, y₂, y₃, y₄, hy₁, hbranch, hy₂, hjump, -, -, -, hdone, hskip⟩ := hlaid.split_ifElse
    have htest := (ht act env line t a y₁ [] hctx hy₁).1 hwt
    refine (htest.trans (leads_branch_ne hbranch hv)).trans ?_
    refine .of_ends (fun q' hq' => hb act env c (y₁ + 1) y₂ q' hctx hy₂ hwb hq') hq fun _ => ?_
    exact (leads_jump hjump hdone).trans (leads_skip hskip)

theorem performs_ifFalse {test : Expr} {orelse : List Stmt} {o : Outcome} (line : UInt32)
    (body : List Stmt) (ht : b.Computes M ρ st test v st₁) (hv : v = M.ofInt 0)
    (ho : b.PerformsAll M ρ st₁ orelse o st') :
    b.Performs M ρ st (.ifElse line test body orelse) o st' := by
  intro act env items a z q hctx hlaid hw hq
  obtain ⟨t, c, n, hwt, hwb, ⟨rfl, rfl⟩ | ⟨d, hwd, rfl⟩⟩ := writes_ifElse hw
  · obtain ⟨y₁, y₂, hy₁, hbranch, hy₂, hdone, hskip⟩ := hlaid.split_if
    have htest := (ht act env line t a y₁ [] hctx hy₁).1 hwt
    refine (htest.trans (leads_branch_zero hbranch hv hdone)).trans ?_
    have hnil : (stmts env []).Writes b.final.strings.entries [] := by
      obtain ⟨s₁, s₂, -, hp⟩ := hwb
      exact ⟨s₂, s₂, yields_stmts_nil_iff.2 ⟨rfl, rfl⟩, hp⟩
    exact .of_ends (fun q' hq' => ho act env [] y₂ y₂ q' hctx (.nil y₂) hnil hq') hq fun _ =>
      leads_skip hskip
  · obtain ⟨y₁, y₂, y₃, y₄, hy₁, hbranch, -, -, helse, hskip, hy₄, -, hskip'⟩ := hlaid.split_ifElse
    have htest := (ht act env line t a y₁ [] hctx hy₁).1 hwt
    refine ((htest.trans (leads_branch_zero hbranch hv helse)).trans (leads_skip hskip)).trans ?_
    exact .of_ends (fun q' hq' => ho act env d y₃ y₄ q' hctx hy₄ hwd hq') hq fun _ =>
      leads_skip hskip'

theorem performs_whileEnd {test : Expr} (line : UInt32) (body : List Stmt)
    (ht : b.Computes M ρ st test v st') (hv : v = M.ofInt 0) :
    b.Performs M ρ st (.whileLoop line test body) .next st' := by
  intro act env items a z q hctx hlaid hw hq
  obtain rfl : q = z := hq
  obtain ⟨t, c, n, hwt, -, rfl⟩ := writes_whileLoop hw
  obtain ⟨y₀, y₁, y₂, -, hskip, hy₁, hbranch, -, -, hdone, hskip'⟩ := hlaid.split_while
  have htest := (ht act env line t y₀ y₁ [] hctx hy₁).1 hwt
  exact (((leads_skip hskip).trans htest).trans (leads_branch_zero hbranch hv hdone)).trans
    (leads_skip hskip')

/-- One round of a loop, and what follows it. -/
theorem performs_while {test : Expr} {body : List Stmt} {o o' : Outcome} {line : UInt32}
    (ht : b.Computes M ρ st test v st₁) (hv : v ≠ M.ofInt 0) (hb : b.PerformsAll M ρ st₁ body o st₂)
    (hnext : o = .next → b.Performs M ρ st₂ (.whileLoop line test body) o' st')
    (hreturned : o = .returned → o' = .returned ∧ st' = st₂) :
    b.Performs M ρ st (.whileLoop line test body) o' st' := by
  intro act env items a z q hctx hlaid hw hq
  obtain ⟨t, c, n, hwt, hwb, rfl⟩ := writes_whileLoop hw
  obtain ⟨y₀, y₁, y₂, hhead, hskip, hy₁, hbranch, hy₂, hjump, -, -⟩ := hlaid.split_while
  have htest := (ht act env line t y₀ y₁ [] hctx hy₁).1 hwt
  have henter := ((leads_skip hskip).trans htest).trans (leads_branch_ne hbranch hv)
  have hbody : ∀ q', Ends p env o y₂ q' → b.Leads M act (y₁ + 1) [] st₁ q' [] st₂ :=
    fun q' hq' => hb act env c (y₁ + 1) y₂ q' hctx hy₂ hwb hq'
  cases o with
  | next =>
    have hround := (henter.trans (hbody y₂ rfl)).trans (leads_jump hjump hhead)
    exact hround.trans (hnext rfl act env _ a z q hctx hlaid hw hq)
  | returned =>
    obtain ⟨rfl, rfl⟩ := hreturned rfl
    exact henter.trans (hbody q hq)

theorem performsAll_nil : b.PerformsAll M ρ st [] .next st := by
  intro act env items a z q hctx hlaid hw hq
  obtain rfl : q = z := hq
  obtain rfl := writes_stmts_nil hw
  exact hlaid.split_nil ▸ .refl

theorem performsAll_cons {x : Stmt} {r : List Stmt} {o : Outcome}
    (h : b.Performs M ρ st x .next st₁) (hr : b.PerformsAll M ρ st₁ r o st') :
    b.PerformsAll M ρ st (x :: r) o st' := by
  intro act env items a z q hctx hlaid hw hq
  obtain ⟨i₁, i₂, h₁, h₂, rfl⟩ := writes_stmts_cons hw
  obtain ⟨y, hy, hz⟩ := hlaid.split
  exact (h act env i₁ a y y hctx hy h₁ rfl).trans (hr act env i₂ y z q hctx hz h₂ hq)

theorem performsAll_returned {x : Stmt} (r : List Stmt) (h : b.Performs M ρ st x .returned st') :
    b.PerformsAll M ρ st (x :: r) .returned st' := by
  intro act env items a z q hctx hlaid hw hq
  obtain ⟨i₁, i₂, h₁, h₂, rfl⟩ := writes_stmts_cons hw
  obtain ⟨y, hy, -⟩ := hlaid.split
  exact h act env i₁ a y q hctx hy h₁ hq

/-- What a run of statements does is done by their code. The induction is over the derivation, with
one rule of the script after another. -/
theorem performsAll_of_runsAll (hn : s.Named) {xs : List Stmt} {o : Outcome}
    (h : s.RunsAll M (M.address p.listing) ρ st xs o st') : b.PerformsAll M ρ st xs o st' := by
  refine @Script.RunsAll.rec W I M (M.address p.listing) s
    (fun ρ st e v st' _ => b.Computes M ρ st e v st')
    (fun ρ st es vs st' _ => b.ComputesAll M ρ st es vs st')
    (fun ρ st f args st' _ => b.Invokes M ρ st f args st')
    (fun ρ st x o st' _ => b.Performs M ρ st x o st')
    (fun ρ st xs o st' _ => b.PerformsAll M ρ st xs o st') ?literal ?name ?binary ?unary ?call
    ?input ?argsNil
    ?argsCons ?invoke ?assign ?update ?ifTrue ?ifFalse ?whileEnd ?whileNext ?whileReturned
    ?define ?ret ?retZero
    ?eval ?print ?pass ?nil ?cons ?returned _ _ _ _ _ h
  case literal => exact fun _ _ v => computes_literal hn v
  case name => exact fun _ _ n => computes_name hn n
  case binary => exact fun op _ _ hl hr => computes_binary op hl hr
  case unary => exact fun op _ he => computes_unary op he
  case call => exact fun _ hc => computes_call hc
  case input => exact fun hf hr => computes_input hf hr
  case argsNil => exact fun _ _ => computesAll_nil
  case argsCons => exact fun _ _ he hr => computesAll_cons he hr
  case invoke => exact fun hr _ hlen _ ha hb => invokes_of_body hn hr ha hlen hb
  case assign => exact fun line n _ he => performs_assign hn line n he
  case update => exact fun line n op _ he => performs_update hn line n op he
  case ifTrue => exact fun line orelse _ hv _ ht hb => performs_ifTrue line orelse ht hv hb
  case ifFalse => exact fun line body _ hv _ ht ho => performs_ifFalse line body ht hv ho
  case whileEnd => exact fun line body _ hv ht => performs_whileEnd line body ht hv
  case whileNext => exact fun _ hv _ _ ht hb hw => performs_while ht hv hb (fun _ => hw) nofun
  case whileReturned =>
    exact fun _ _ hv _ ht hb => performs_while ht hv hb nofun fun _ => ⟨rfl, rfl⟩
  case define => exact fun _ _ line name params body => performs_define line name params body
  case ret => exact fun line _ he => performs_ret_some hn line he
  case retZero => exact fun r _ line => performs_ret_none hn r line
  case eval => exact fun line _ he => performs_eval line he
  case print => exact fun line hf _ he => performs_print line hf he
  case pass => exact fun _ _ line => performs_pass line
  case nil => exact fun _ _ => performsAll_nil
  case cons => exact fun _ _ hx hr => performsAll_cons hx hr
  case returned => exact fun r _ hx => performsAll_returned r hx

end Rules
end Build
end TreeAsm
