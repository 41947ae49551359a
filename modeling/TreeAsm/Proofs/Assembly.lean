import TreeAsm.Proofs.Generation

/-! What generated code is made of: instructions that run straight on, pushed string constants, and
the three shapes with labels. Every invariant of generated code is an induction over these
pieces. -/
namespace TreeAsm

namespace Expr

mutual

/-- The string literals, in the order in which they are evaluated. -/
def texts : Expr → List String
  | .literal (.str t) => [t]
  | .literal _ => []
  | .name _ => []
  | .binary _ l r => texts l ++ texts r
  | .unary _ e => texts e
  | .call _ args => textsAll args
  | .unsupported _ => []

def textsAll : List Expr → List String
  | [] => []
  | e :: r => texts e ++ textsAll r

end

end Expr

namespace Stmt

mutual

/-- The string literals, in the order in which their code is written. -/
def texts : Stmt → List String
  | .assign _ _ value => value.texts
  | .update _ _ _ value => value.texts
  | .ifElse _ test body orelse => test.texts ++ (textsAll body ++ textsAll orelse)
  | .whileLoop _ test body => test.texts ++ textsAll body
  | .ret _ (some value) => value.texts
  | .ret _ none => []
  | .eval _ value => value.texts
  | .define .. | .pass _ | .unsupported .. => []

def textsAll : List Stmt → List String
  | [] => []
  | s :: r => texts s ++ textsAll r

end

end Stmt

namespace Lowering
open Emit

/-- An instruction that a body may hold wherever no label is involved. -/
inductive Straight (env : Env) : Instruction → Prop where
  | imm (n : Int) : Straight env (.on .push (.imm n))
  | real (x : Binary64) : Straight env (.on .push (.real x))
  | load {name : String} {loc : Location} (h : env.resolve name = some loc) :
      Straight env (.on .push (.mem loc))
  | store {name : String} {loc : Location} (h : env.resolve name = some loc) :
      Straight env (.on .pop (.mem loc))
  | binary (op : BinaryOp) : Straight env (.bare op.opcode)
  | unary (op : UnaryOp) : Straight env (.bare op.opcode)
  | call {name : String} {f : Frame} (h : env.callee name = some f) :
      Straight env (.on .call (.target (.plain f.routine)))
  | fetch {name : String} {f : Frame} (h : env.callee name = some f) :
      Straight env (.on .push (.mem f.resultCell))
  | drop (n : Nat) : Straight env (.on .addsp (.imm n))
  | read : Straight env (.bare .deci)
  | print : Straight env (.bare .deco)
  | give {cell : Location} {exit : Label} (h : env.result = some (cell, exit)) :
      Straight env (.on .pop (.mem cell))
  | leave {cell : Location} {exit : Label} (h : env.result = some (cell, exit)) :
      Straight env (.on .br (.target exit))

/-- The code takes the supply from the first to the second one, and pushes the addresses of the
texts in order. -/
inductive Assembled (env : Env) : List String → Supply → List Item → Supply → Prop where
  | nil (s : Supply) : Assembled env [] s [] s
  | append {x y : List String} {s s₁ s' : Supply} {i j : List Item} (hi : Assembled env x s i s₁)
      (hj : Assembled env y s₁ j s') : Assembled env (x ++ y) s (i ++ j) s'
  | op {i : Instruction} (s : Supply) (h : Straight env i) : Assembled env [] s [.op i] s
  | text {t : String} {l : Label} {s s' : Supply} (h : s.intern? t = some (l, s')) :
      Assembled env [t] s [.op (.on .push (.addr l))] s'
  | branch {x y : List String} {s s₁ s' : Supply} {t b : List Item} (ht : Assembled env x s t s₁)
      (hb : Assembled env y s₁.advance b s') : Assembled env (x ++ y) s (ifItems t b s₁.next) s'
  | choice {x y z : List String} {s s₁ s₂ s' : Supply} {t b o : List Item}
      (ht : Assembled env x s t s₁) (hb : Assembled env y s₁.advance.advance b s₂)
      (ho : Assembled env z s₂ o s') :
      Assembled env (x ++ (y ++ z)) s (ifElseItems t b o s₁.next) s'
  | loop {x y : List String} {s s₁ s' : Supply} {t b : List Item}
      (ht : Assembled env x s.advance.advance t s₁) (hb : Assembled env y s₁ b s') :
      Assembled env (x ++ y) s (whileItems t b s.next) s'

namespace Assembled

variable {env : Env} {line : UInt32} {x : List String} {s s' : Supply} {items : List Item}

theorem concat {i : Instruction} (h : Assembled env x s items s') (hi : Straight env i) :
    Assembled env x s (items ++ [.op i]) s' := by
  simpa using h.append (.op s' hi)

theorem ofStraight {code : List Instruction} (h : ∀ i ∈ code, Straight env i) :
    Assembled env [] s (code.map .op) s := by
  induction code with
  | nil => exact .nil s
  | cons i r ih =>
    have hr := ih fun j hj => h j (List.mem_cons_of_mem _ hj)
    exact (Assembled.op s (h i List.mem_cons_self)).append hr

/-- Straight code behind assembled code. -/
theorem followed {code : List Instruction} (h : Assembled env x s items s')
    (hc : ∀ i ∈ code, Straight env i) : Assembled env x s (items ++ code.map .op) s' := by
  simpa using h.append (ofStraight hc)

theorem ofLiteral {v : Literal} (h : (literal v).Yields s () items s') :
    Assembled env (Expr.literal v).texts s items s' := by
  cases v with
  | int n =>
    obtain ⟨rfl, rfl⟩ := yields_on_iff.1 h
    exact .op _ (.imm _)
  | real x =>
    obtain ⟨rfl, rfl⟩ := yields_on_iff.1 h
    exact .op _ (.real x)
  | bool b =>
    obtain ⟨rfl, rfl⟩ := yields_on_iff.1 h
    exact .op _ (.imm _)
  | str t =>
    obtain ⟨l, hl, rfl⟩ := yields_text_iff.1 h
    exact .text hl

theorem callItems_straight {f : Frame} {name : String} (hf : env.callee name = some f) (count : Nat)
    (used : Bool) :
    ∃ code : List Instruction, callItems f count used = code.map .op ∧
      ∀ i ∈ code, Straight env i := by
  refine ⟨.on .call (.target (.plain f.routine)) ::
    ((if count = 0 then [] else [.on .addsp (.imm count)]) ++
      (if used then [.on .push (.mem f.resultCell)] else [])), ?_, ?_⟩
  · by_cases h0 : count = 0 <;> cases used <;> simp [callItems, h0]
  · intro i hi
    simp only [List.mem_cons, List.mem_append] at hi
    rcases hi with rfl | hi | hi
    · exact .call hf
    · split at hi
      · simp at hi
      · obtain rfl := List.mem_singleton.1 hi
        exact .drop count
    · split at hi
      · obtain rfl := List.mem_singleton.1 hi
        exact .fetch hf
      · simp at hi

theorem inputItems_assembled (used : Bool) : Assembled env [] s (inputItems used) s := by
  cases used with
  | false => exact (Assembled.op s .read).append (.op s (.drop 1))
  | true => exact .op s .read

/-- A call is assembled if its arguments are. -/
theorem ofCall {func : String} {count : Nat} {args : Emit Unit} {used : Bool}
    (ha : ∀ {s s' : Supply} {a : List Item}, args.Yields s () a s' → Assembled env x s a s')
    (h0 : count = 0 → x = []) (h : (call env line func count args used).Yields s () items s') :
    Assembled env x s items s' := by
  rcases yields_call_iff.1 h with ⟨f, a, hf, -, hy, rfl⟩ | ⟨-, hb⟩
  · obtain ⟨code, hc, hs⟩ := callItems_straight hf count used
    rw [hc]
    exact (ha hy).followed hs
  · rcases yields_builtin_iff.1 hb with ⟨-, -, -, a, hy, rfl⟩ | ⟨-, hc, rfl, rfl⟩
    · exact (ha hy).concat .print
    · rw [h0 hc]
      exact inputItems_assembled used

mutual

theorem ofExpr (e : Expr) {s s' : Supply} {items : List Item}
    (h : (expr env line e).Yields s () items s') : Assembled env e.texts s items s' := by
  match e with
  | .literal v => exact ofLiteral h
  | .name id =>
    obtain ⟨loc, hl, rfl, rfl⟩ := yields_name_iff.1 h
    exact .op _ (.load hl)
  | .binary o l r =>
    obtain ⟨i₁, s₁, i₂, h₁, h₂, rfl⟩ := yields_binary_iff.1 h
    exact (ofExpr l h₁).append ((ofExpr r h₂).concat (.binary o))
  | .unary o e =>
    obtain ⟨i, hi, rfl⟩ := yields_unary_iff.1 h
    exact (ofExpr e hi).concat (.unary o)
  | .call func args =>
    refine ofCall (fun ha => ofExprs args ha) ?_ h
    intro h0
    rw [Expr.texts, List.length_eq_zero_iff.1 h0, Expr.textsAll]
  | .unsupported c => exact absurd h not_yields_unsupported

theorem ofExprs (es : List Expr) {s s' : Supply} {items : List Item}
    (h : (exprs env line es).Yields s () items s') :
    Assembled env (Expr.textsAll es) s items s' := by
  match es with
  | [] =>
    obtain ⟨rfl, rfl⟩ := yields_exprs_nil_iff.1 h
    exact .nil _
  | e :: r =>
    obtain ⟨i₁, s₁, i₂, h₁, h₂, rfl⟩ := yields_exprs_cons_iff.1 h
    exact (ofExpr e h₁).append (ofExprs r h₂)

end

theorem ofAssign {targets : List Expr} {value : Expr}
    (h : (assign env line value targets).Yields s () items s') :
    Assembled env value.texts s items s' := by
  obtain ⟨id, loc, i, rfl, hl, hv, rfl⟩ := yields_assign_iff.1 h
  exact (ofExpr value hv).concat (.store hl)

theorem ofUpdate {t value : Expr} {op : BinaryOp}
    (h : (update env line t op value).Yields s () items s') :
    Assembled env value.texts s items s' := by
  obtain ⟨id, loc, i, rfl, hl, hv, rfl⟩ := yields_update_iff.1 h
  have hc : ∀ j ∈ [Instruction.bare op.opcode, .on .pop (.mem loc)], Straight env j := by
    simpa using ⟨.binary op, .store hl⟩
  exact (Assembled.op s (.load hl)).append ((ofExpr value hv).followed hc)

theorem ofRet {value : Option Expr} (h : (ret env line value).Yields s () items s') :
    Assembled env (Stmt.ret line value).texts s items s' := by
  obtain ⟨cell, exit, i, hr, hv, rfl⟩ := yields_ret_iff.1 h
  have hc : ∀ j ∈ [Instruction.on .pop (.mem cell), .on .br (.target exit)], Straight env j := by
    simpa using ⟨.give hr, .leave hr⟩
  have hi : Assembled env (Stmt.ret line value).texts s i s' := by
    cases value with
    | none =>
      obtain ⟨rfl, rfl⟩ := yields_on_iff.1 hv
      exact .op _ (.imm 0)
    | some e => exact ofExpr e hv
  exact hi.followed hc

theorem ofDiscard {e : Expr} (h : (discard env line e).Yields s () items s') :
    Assembled env e.texts s items s' := by
  rcases yields_discard_iff.1 h with ⟨func, args, rfl, hc⟩ | ⟨-, i, hi, rfl⟩
  · refine ofCall (fun ha => ofExprs args ha) ?_ hc
    intro h0
    rw [Expr.texts, List.length_eq_zero_iff.1 h0, Expr.textsAll]
  · exact (ofExpr e hi).concat (.drop 1)

mutual

theorem ofStmt (x : Stmt) {s s' : Supply} {items : List Item}
    (h : (stmt env x).Yields s () items s') : Assembled env x.texts s items s' := by
  match x with
  | .assign line targets value => exact ofAssign h
  | .update line t o value => exact ofUpdate h
  | .ifElse line test body orelse =>
    rw [stmt] at h
    split at h
    next ho =>
      obtain ⟨t, s₁, b, ht, -, hb, rfl⟩ := yields_ifThen_iff.1 h
      rw [Stmt.texts, List.isEmpty_iff.1 ho, Stmt.textsAll, List.append_nil]
      exact .branch (ofExpr test ht) (ofStmts body hb)
    next ho =>
      obtain ⟨t, s₁, b, s₂, o, ht, -, hb, ho, rfl⟩ := yields_ifThenElse_iff.1 h
      exact .choice (ofExpr test ht) (ofStmts body hb) (ofStmts orelse ho)
  | .whileLoop line test body =>
    obtain ⟨t, s₁, b, -, ht, hb, rfl⟩ := yields_whileDo_iff.1 h
    exact .loop (ofExpr test ht) (ofStmts body hb)
  | .define line name params body => exact absurd h not_yields_unsupported
  | .ret line value => exact ofRet h
  | .eval line value => exact ofDiscard h
  | .pass line =>
    obtain ⟨-, rfl, rfl⟩ := yields_pure_iff.1 h
    exact .nil _
  | .unsupported line construct => exact absurd h not_yields_unsupported

/-- The code of a body is assembled, and pushes the addresses of the body's string literals in
order. -/
theorem ofStmts (xs : List Stmt) {s s' : Supply} {items : List Item}
    (h : (stmts env xs).Yields s () items s') : Assembled env (Stmt.textsAll xs) s items s' := by
  match xs with
  | [] =>
    obtain ⟨rfl, rfl⟩ := yields_stmts_nil_iff.1 h
    exact .nil _
  | x :: r =>
    obtain ⟨i₁, s₁, i₂, h₁, h₂, rfl⟩ := yields_stmts_cons_iff.1 h
    exact (ofStmt x h₁).append (ofStmts r h₂)

end

end Assembled
end Lowering
end TreeAsm
