import TreeAsm.Proofs.JsonDepth
import TreeAsm.Proofs.TreeText

/-! Texts of scripts however they are spelled. What a text leaves out is written when the script is
written again; only the arguments of a call that has none can make the new text nest deeper than the
old one, by one level. -/
namespace TreeAsm

namespace Expr

mutual

/-- How deep the shortest spelling of an expression nests. A call without arguments does not mention
them. -/
def leastDepth : Expr → ℕ
  | .literal _ => 2
  | .name _ => 1
  | .binary _ l r => max (leastDepth l) (leastDepth r) + 1
  | .unary _ e => leastDepth e + 1
  | .call _ args => if args.isEmpty then 1 else leastDepthAll args + 2
  | .unsupported _ => 1

def leastDepthAll : List Expr → ℕ
  | [] => 0
  | e :: r => max (leastDepth e) (leastDepthAll r)

end

mutual

/-- The levels at which calls without arguments stand. The expression itself stands at the first
level, and what it is made of one level deeper, or two where it stands in a list. -/
def bareLevels : Expr → List ℕ
  | .literal _ => []
  | .name _ => []
  | .binary _ l r => (bareLevels l ++ bareLevels r).map (· + 1)
  | .unary _ e => (bareLevels e).map (· + 1)
  | .call _ args => if args.isEmpty then [1] else (bareLevelsAll args).map (· + 2)
  | .unsupported _ => []

def bareLevelsAll : List Expr → List ℕ
  | [] => []
  | e :: r => bareLevels e ++ bareLevelsAll r

end

end Expr

namespace Stmt

mutual

/-- How deep the shortest spelling of a statement nests. -/
def leastDepth : Stmt → ℕ
  | .assign _ targets value => max (Expr.leastDepthAll targets + 1) value.leastDepth + 1
  | .update _ target _ value => max target.leastDepth value.leastDepth + 1
  | .ifElse _ test body orelse =>
    max test.leastDepth (max (leastDepthAll body) (leastDepthAll orelse) + 1) + 1
  | .whileLoop _ test body => max test.leastDepth (leastDepthAll body + 1) + 1
  | .define _ _ params body => max (if params.isEmpty then 0 else 1) (leastDepthAll body) + 2
  | .ret _ value => (value.map Expr.leastDepth).getD 0 + 1
  | .eval _ value => value.leastDepth + 1
  | .pass _ => 1
  | .unsupported .. => 1

def leastDepthAll : List Stmt → ℕ
  | [] => 0
  | s :: r => max (leastDepth s) (leastDepthAll r)

end

mutual

/-- The levels at which calls without arguments stand in a statement. -/
def bareLevels : Stmt → List ℕ
  | .assign _ targets value =>
    (Expr.bareLevelsAll targets).map (· + 2) ++ value.bareLevels.map (· + 1)
  | .update _ target _ value => (target.bareLevels ++ value.bareLevels).map (· + 1)
  | .ifElse _ test body orelse =>
    test.bareLevels.map (· + 1) ++ (bareLevelsAll body ++ bareLevelsAll orelse).map (· + 2)
  | .whileLoop _ test body => test.bareLevels.map (· + 1) ++ (bareLevelsAll body).map (· + 2)
  | .define _ _ _ body => (bareLevelsAll body).map (· + 2)
  | .ret _ value => ((value.map Expr.bareLevels).getD []).map (· + 1)
  | .eval _ value => value.bareLevels.map (· + 1)
  | .pass _ => []
  | .unsupported .. => []

def bareLevelsAll : List Stmt → List ℕ
  | [] => []
  | s :: r => bareLevels s ++ bareLevelsAll r

end

end Stmt

/-- The levels at which calls without arguments stand in the text of a script. -/
def Script.bareLevels (s : Script) : List ℕ := (Stmt.bareLevelsAll s.body).map (· + 2)

/-- A text of depth `depth` that needs `least` levels at least, and one more below each of the
levels `bare`. -/
structure Levels (depth least : ℕ) (bare : List ℕ) : Prop where
  le_iff : ∀ d, depth ≤ d ↔ least ≤ d ∧ ∀ l ∈ bare, l < d
  bare_le : ∀ l ∈ bare, l ≤ least

namespace Levels

variable {m n k l : ℕ} {bs cs : List ℕ}

theorem leaf (n : ℕ) : Levels n n [] := ⟨by simp, by simp⟩

/-- A call with an empty list of arguments. -/
theorem empty : Levels 2 1 [1] where
  le_iff d := by
    simp only [List.forall_mem_singleton]
    omega
  bare_le := by simp

theorem max (h : Levels m k bs) (h' : Levels n l cs) :
    Levels (Nat.max m n) (Nat.max k l) (bs ++ cs) where
  le_iff d := by
    rw [Nat.max_le, Nat.max_le, h.le_iff, h'.le_iff, List.forall_mem_append, and_and_and_comm]
  bare_le := by
    refine List.forall_mem_append.2 ⟨fun b hb => ?_, fun b hb => ?_⟩
    · exact (h.bare_le b hb).trans (Nat.le_max_left k l)
    · exact (h'.bare_le b hb).trans (Nat.le_max_right k l)

theorem deeper (h : Levels m k bs) (i : ℕ) : Levels (m + i) (k + i) (bs.map (· + i)) where
  le_iff d := by
    rw [List.forall_mem_map]
    by_cases hd : i ≤ d
    · obtain ⟨e, rfl⟩ := Nat.exists_eq_add_of_le' hd
      simp only [Nat.add_le_add_iff_right, Nat.add_lt_add_iff_right]
      exact h.le_iff e
    · omega
  bare_le := by
    refine List.forall_mem_map.2 fun b hb => ?_
    exact Nat.add_le_add_right (h.bare_le b hb) i

end Levels

section Levels

open Json

namespace Expr

mutual

/-- Written in full, an expression nests as deep as in its shortest spelling, or as the empty list
behind a call without arguments. -/
theorem levels : ∀ e : Expr, Levels e.toJson.depth e.leastDepth e.bareLevels
  | .literal v => by
    have hv : v.toJson.depth = 1 := by
      cases v with
      | real x => cases x <;> rfl
      | _ => rfl
    simpa [toJson, depth, depthMembers, leastDepth, bareLevels, hv] using Levels.leaf 2
  | .name id => Levels.leaf 1
  | .binary op l r => by
    have h := ((levels l).max (levels r)).deeper 1
    simpa [toJson, depth, depthMembers, leastDepth, bareLevels] using h
  | .unary op e => by
    have h := (levels e).deeper 1
    simpa [toJson, depth, depthMembers, leastDepth, bareLevels] using h
  | .call f [] => Levels.empty
  | .call f (a :: r) => by
    have h := (levelsAll (a :: r)).deeper 2
    simpa [toJson, depth, depthMembers, leastDepth, bareLevels] using h
  | .unsupported c => Levels.leaf 1

theorem levelsAll :
    ∀ es : List Expr, Levels (depthItems (toJsons es)) (leastDepthAll es) (bareLevelsAll es)
  | [] => Levels.leaf 0
  | e :: r => (levels e).max (levelsAll r)

end

end Expr

namespace Stmt

theorem depth_node (line : UInt32) (kind : String) (fields : List (String × Json)) :
    (node line kind fields).depth = depthMembers fields + 1 := by
  simp [node, depth, depthMembers]

theorem depth_toJson_param (p : Param) : p.toJson.depth = 1 := by
  obtain ⟨name, annotation⟩ := p
  cases annotation <;> rfl

theorem depthItems_map_toJson (params : List Param) :
    depthItems (params.map Param.toJson) = if params.isEmpty then 0 else 1 := by
  induction params with
  | nil => rfl
  | cons p r ih =>
    rw [List.map_cons, depthItems, depth_toJson_param, ih]
    split <;> rfl

mutual

theorem levels : ∀ s : Stmt, Levels s.toJson.depth s.leastDepth s.bareLevels
  | .assign line targets value => by
    have h := (((Expr.levelsAll targets).deeper 1).max value.levels).deeper 1
    simpa [toJson, depth_node, depth, depthMembers, leastDepth, bareLevels] using h
  | .update line target op value => by
    have h := (target.levels.max value.levels).deeper 1
    simpa [toJson, depth_node, depth, depthMembers, leastDepth, bareLevels] using h
  | .ifElse line test body orelse => by
    have h := (test.levels.max (((levelsAll body).max (levelsAll orelse)).deeper 1)).deeper 1
    simpa [toJson, depth_node, depth, depthMembers, leastDepth, bareLevels] using h
  | .whileLoop line test body => by
    have h := (test.levels.max ((levelsAll body).deeper 1)).deeper 1
    simpa [toJson, depth_node, depth, depthMembers, leastDepth, bareLevels] using h
  | .define line name params body => by
    have h := ((Levels.leaf (if params.isEmpty then 0 else 1)).max (levelsAll body)).deeper 2
    simpa [toJson, depth_node, depth, depthMembers, depthItems_map_toJson, leastDepth,
      bareLevels] using h
  | .ret line none => Levels.leaf 1
  | .ret line (some e) => by
    have h := e.levels.deeper 1
    simpa [toJson, depth_node, depthMembers, leastDepth, bareLevels] using h
  | .eval line value => by
    have h := value.levels.deeper 1
    simpa [toJson, depth_node, depthMembers, leastDepth, bareLevels] using h
  | .pass line => Levels.leaf 1
  | .unsupported line construct => Levels.leaf 1

theorem levelsAll :
    ∀ ss : List Stmt, Levels (depthItems (toJsons ss)) (leastDepthAll ss) (bareLevelsAll ss)
  | [] => Levels.leaf 0
  | s :: r => (levels s).max (levelsAll r)

end

end Stmt

end Levels

/-! ### Reading

A value gives nothing that nests deeper than itself, whichever way it is spelled. -/

/-- What a value of depth `d` stands for nests no deeper than `d` at least, and all its reals are
finite. -/
structure Reading.Fits (d : ℕ) (r : Reading) : Prop where
  json : r.json.depth ≤ d
  expr : ∀ e, r.expr = some e → e.leastDepth ≤ d ∧ ∀ x ∈ e.reals, x.isFinite = true
  exprs : ∀ es, r.exprs = some es →
    Expr.leastDepthAll es < d ∧ ∀ x ∈ Expr.realsAll es, x.isFinite = true
  stmt : ∀ s, r.stmt = some s → s.leastDepth ≤ d ∧ ∀ x ∈ s.reals, x.isFinite = true
  stmts : ∀ ss, r.stmts = some ss →
    Stmt.leastDepthAll ss < d ∧ ∀ x ∈ Stmt.realsAll ss, x.isFinite = true

theorem Reading.Fits.mono {d d' : ℕ} {r : Reading} (h : r.Fits d) (hd : d ≤ d') : r.Fits d' where
  json := h.json.trans hd
  expr e he := ⟨(h.expr e he).1.trans hd, (h.expr e he).2⟩
  exprs es hes := ⟨(h.exprs es hes).1.trans_le hd, (h.exprs es hes).2⟩
  stmt s hs := ⟨(h.stmt s hs).1.trans hd, (h.stmt s hs).2⟩
  stmts ss hss := ⟨(h.stmts ss hss).1.trans_le hd, (h.stmts ss hss).2⟩

theorem Literal.of_ofJson? {j : Json} {v : Literal} (h : ofJson? j = some v) :
    0 < j.depth ∧ ∀ x ∈ v.reals, x.isFinite = true := by
  unfold ofJson? at h
  split at h
  all_goals simp at h
  next n =>
    obtain ⟨i, -, rfl⟩ := h
    exact ⟨by simp [Json.depth], by simp [reals]⟩
  next n =>
    obtain ⟨x, -, rfl⟩ := h
    exact ⟨by simp [Json.depth], by simp [reals, Binary64.isFinite]⟩
  next b =>
    subst h
    exact ⟨by simp [Json.depth], by simp [reals]⟩
  next s =>
    subst h
    exact ⟨by simp [Json.depth], by simp [reals]⟩

theorem Param.depth_pos_of_ofJson? {j : Json} {p : Param} (h : ofJson? j = some p) :
    0 < j.depth := by
  cases j with
  | obj members => simp [Json.depth]
  | arr items => simp [Json.depth]
  | _ => simp [ofJson?] at h

namespace Fields

variable {fs : Fields} {d : ℕ}

theorem fits_of_lookup {key : String} {r : Reading} (hfs : ∀ m ∈ fs, m.2.Fits d)
    (h : fs.lookup key = some r) : r.Fits d := by
  obtain ⟨l₁, l₂, rfl, -⟩ := List.lookup_eq_some_iff.1 h
  exact hfs (key, r) (by simp)

theorem depth_le_of_json? {key : String} {j : Json} (hfs : ∀ m ∈ fs, m.2.Fits d)
    (h : fs.json? key = some j) : j.depth ≤ d := by
  obtain ⟨r, hr, rfl⟩ := Option.map_eq_some_iff.1 h
  exact (fits_of_lookup hfs hr).json

theorem fits_of_expr? {key : String} {e : Expr} (hfs : ∀ m ∈ fs, m.2.Fits d)
    (h : fs.expr? key = some e) : e.leastDepth ≤ d ∧ ∀ x ∈ e.reals, x.isFinite = true := by
  obtain ⟨r, hr, he⟩ := Option.bind_eq_some_iff.1 h
  exact (fits_of_lookup hfs hr).expr e he

theorem fits_of_exprs? {key : String} {es : List Expr} (hfs : ∀ m ∈ fs, m.2.Fits d)
    (h : fs.exprs? key = some es) :
    Expr.leastDepthAll es < d ∧ ∀ x ∈ Expr.realsAll es, x.isFinite = true := by
  obtain ⟨r, hr, he⟩ := Option.bind_eq_some_iff.1 h
  exact (fits_of_lookup hfs hr).exprs es he

theorem fits_of_stmts? {key : String} {ss : List Stmt} (hfs : ∀ m ∈ fs, m.2.Fits d)
    (h : fs.stmts? key = some ss) :
    Stmt.leastDepthAll ss < d ∧ ∀ x ∈ Stmt.realsAll ss, x.isFinite = true := by
  obtain ⟨r, hr, he⟩ := Option.bind_eq_some_iff.1 h
  exact (fits_of_lookup hfs hr).stmts ss he

/-- A list that may be left out is empty or comes from a field. -/
theorem eq_nil_or_of_listOrEmpty {α : Type} {read : Reading → Option (List α)} {key : String}
    {xs : List α} (hfs : ∀ m ∈ fs, m.2.Fits d) (h : fs.listOrEmpty read key = some xs) :
    xs = [] ∨ ∃ r, r.Fits d ∧ read r = some xs := by
  unfold listOrEmpty at h
  split at h
  next => exact .inl (Option.some.inj h).symm
  next r hr => exact .inr ⟨r, fits_of_lookup hfs hr, h⟩

/-- An expression that may be left out is missing or comes from a field. -/
theorem eq_none_or_of_optionalExpr? {key : String} {value : Option Expr}
    (hfs : ∀ m ∈ fs, m.2.Fits d) (h : fs.optionalExpr? key = some value) :
    value = none ∨ ∃ e, value = some e ∧ e.leastDepth ≤ d ∧ ∀ x ∈ e.reals, x.isFinite = true := by
  unfold optionalExpr? at h
  split at h
  next => exact .inl (Option.some.inj h).symm
  next r hr =>
    split at h
    next => exact .inl (Option.some.inj h).symm
    next =>
      obtain ⟨e, he, rfl⟩ := Option.map_eq_some_iff.1 h
      exact .inr ⟨e, rfl, (fits_of_lookup hfs hr).expr e he⟩

end Fields

theorem Stmt.lt_depth_of_params? {r : Reading} {params : List Param} (h : params? r = some params) :
    (if params.isEmpty then 0 else 1) < r.json.depth := by
  unfold params? at h
  split at h
  next items hitems =>
    rw [hitems, Json.depth]
    cases items with
    | nil =>
      obtain rfl : [] = params := Option.some.inj h
      simp
    | cons j rest =>
      rw [List.mapM_cons, Option.bind_eq_bind, Option.bind_eq_some_iff] at h
      obtain ⟨p, hp, -⟩ := h
      have hpos := Param.depth_pos_of_ofJson? hp
      rw [Json.depthItems]
      split <;> omega
  next => simp at h

theorem Expr.fits_of_ofFields? {fs : Fields} {d : ℕ} {k : Kind} {e : Expr}
    (hfs : ∀ m ∈ fs, m.2.Fits d) (h : ofFields? fs k = some e) :
    e.leastDepth ≤ d + 1 ∧ ∀ x ∈ e.reals, x.isFinite = true := by
  cases k <;> simp only [ofFields?, Option.bind_eq_bind, Option.bind_eq_some_iff,
    Option.some.injEq] at h
  case literal =>
    obtain ⟨j, hj, v, hv, rfl⟩ := h
    obtain ⟨hpos, hfinite⟩ := Literal.of_ofJson? hv
    have hle := Fields.depth_le_of_json? hfs hj
    exact ⟨by rw [leastDepth]; omega, hfinite⟩
  case name =>
    obtain ⟨id, -, rfl⟩ := h
    exact ⟨by simp [leastDepth], by simp [reals]⟩
  case binary =>
    obtain ⟨_, -, _, -, op, -, l, hl, r, hr, rfl⟩ := h
    have hl := Fields.fits_of_expr? hfs hl
    have hr := Fields.fits_of_expr? hfs hr
    exact ⟨by rw [leastDepth]; omega, by simpa [reals, or_imp, forall_and] using ⟨hl.2, hr.2⟩⟩
  case unary =>
    obtain ⟨_, -, _, -, op, -, e, he, rfl⟩ := h
    have he := Fields.fits_of_expr? hfs he
    exact ⟨by rw [leastDepth]; omega, by simpa [reals] using he.2⟩
  case call =>
    obtain ⟨f, -, args, hargs, rfl⟩ := h
    rcases Fields.eq_nil_or_of_listOrEmpty hfs hargs with rfl | ⟨r, hr, hread⟩
    · exact ⟨by simp [leastDepth], by simp [reals, realsAll]⟩
    · have hargs := hr.exprs args hread
      exact ⟨by rw [leastDepth]; split <;> omega, by simpa [reals] using hargs.2⟩
  case unsupported =>
    obtain ⟨c, -, rfl⟩ := h
    exact ⟨by simp [leastDepth], by simp [reals]⟩

theorem Stmt.fits_of_ofFields? {fs : Fields} {d : ℕ} {line : UInt32} {k : Kind} {s : Stmt}
    (hfs : ∀ m ∈ fs, m.2.Fits d) (h : ofFields? fs line k = some s) :
    s.leastDepth ≤ d + 1 ∧ ∀ x ∈ s.reals, x.isFinite = true := by
  cases k <;> simp only [ofFields?, Option.bind_eq_bind, Option.bind_eq_some_iff,
    Option.some.injEq] at h
  case assign =>
    obtain ⟨targets, ht, value, hv, rfl⟩ := h
    have ht := Fields.fits_of_exprs? hfs ht
    have hv := Fields.fits_of_expr? hfs hv
    exact ⟨by rw [leastDepth]; omega, by simpa [reals, or_imp, forall_and] using ⟨ht.2, hv.2⟩⟩
  case update =>
    obtain ⟨_, -, _, -, op, -, target, ht, value, hv, rfl⟩ := h
    have ht := Fields.fits_of_expr? hfs ht
    have hv := Fields.fits_of_expr? hfs hv
    exact ⟨by rw [leastDepth]; omega, by simpa [reals, or_imp, forall_and] using ⟨ht.2, hv.2⟩⟩
  case ifElse =>
    obtain ⟨test, ht, body, hb, orelse, ho, rfl⟩ := h
    have ht := Fields.fits_of_expr? hfs ht
    have hb := Fields.fits_of_stmts? hfs hb
    have ho : leastDepthAll orelse < d ∧ ∀ x ∈ realsAll orelse, x.isFinite = true := by
      rcases Fields.eq_nil_or_of_listOrEmpty hfs ho with rfl | ⟨r, hr, hread⟩
      · exact ⟨by rw [leastDepthAll]; omega, by simp [realsAll]⟩
      · exact hr.stmts orelse hread
    exact ⟨by rw [leastDepth]; omega, by simpa [reals, or_imp, forall_and] using ⟨ht.2, hb.2, ho.2⟩⟩
  case whileLoop =>
    obtain ⟨test, ht, body, hb, rfl⟩ := h
    have ht := Fields.fits_of_expr? hfs ht
    have hb := Fields.fits_of_stmts? hfs hb
    exact ⟨by rw [leastDepth]; omega, by simpa [reals, or_imp, forall_and] using ⟨ht.2, hb.2⟩⟩
  case define =>
    obtain ⟨name, -, params, hp, body, hb, rfl⟩ := h
    have hb := Fields.fits_of_stmts? hfs hb
    have hp : (if params.isEmpty then 0 else 1) < d := by
      rcases Fields.eq_nil_or_of_listOrEmpty hfs hp with rfl | ⟨r, hr, hread⟩
      · rw [List.isEmpty_nil, if_pos rfl]
        omega
      · exact (lt_depth_of_params? hread).trans_le hr.json
    exact ⟨by rw [leastDepth]; omega, by simpa [reals] using hb.2⟩
  case ret =>
    obtain ⟨value, hv, rfl⟩ := h
    rcases Fields.eq_none_or_of_optionalExpr? hfs hv with rfl | ⟨e, rfl, he⟩
    · exact ⟨by simp [leastDepth], by simp [reals]⟩
    · exact ⟨by simpa [leastDepth] using he.1, by simpa [reals] using he.2⟩
  case eval =>
    obtain ⟨value, hv, rfl⟩ := h
    have hv := Fields.fits_of_expr? hfs hv
    exact ⟨by rw [leastDepth]; omega, by simpa [reals] using hv.2⟩
  case pass =>
    subst h
    exact ⟨by simp [leastDepth], by simp [reals]⟩
  case unsupported =>
    obtain ⟨c, -, rfl⟩ := h
    exact ⟨by simp [leastDepth], by simp [reals]⟩

theorem Expr.fits_of_mapM {rs : List Reading} {d : ℕ} {es : List Expr} (hrs : ∀ r ∈ rs, r.Fits d)
    (h : rs.mapM (·.expr) = some es) :
    leastDepthAll es ≤ d ∧ ∀ x ∈ realsAll es, x.isFinite = true := by
  induction rs generalizing es with
  | nil =>
    obtain rfl : [] = es := Option.some.inj h
    exact ⟨by simp [leastDepthAll], by simp [realsAll]⟩
  | cons r rest ih =>
    simp only [List.mapM_cons, Option.bind_eq_bind, Option.bind_eq_some_iff, Option.pure_def,
      Option.some.injEq] at h
    obtain ⟨e, he, es, hes, rfl⟩ := h
    have he := (hrs r List.mem_cons_self).expr e he
    have hes := ih (fun r hr => hrs r (List.mem_cons_of_mem _ hr)) hes
    exact ⟨by rw [leastDepthAll]; omega, by simpa [realsAll, or_imp, forall_and]
      using ⟨he.2, hes.2⟩⟩

theorem Stmt.fits_of_mapM {rs : List Reading} {d : ℕ} {ss : List Stmt} (hrs : ∀ r ∈ rs, r.Fits d)
    (h : rs.mapM (·.stmt) = some ss) :
    leastDepthAll ss ≤ d ∧ ∀ x ∈ realsAll ss, x.isFinite = true := by
  induction rs generalizing ss with
  | nil =>
    obtain rfl : [] = ss := Option.some.inj h
    exact ⟨by simp [leastDepthAll], by simp [realsAll]⟩
  | cons r rest ih =>
    simp only [List.mapM_cons, Option.bind_eq_bind, Option.bind_eq_some_iff, Option.pure_def,
      Option.some.injEq] at h
    obtain ⟨s, hs, ss, hss, rfl⟩ := h
    have hs := (hrs r List.mem_cons_self).stmt s hs
    have hss := ih (fun r hr => hrs r (List.mem_cons_of_mem _ hr)) hss
    exact ⟨by rw [leastDepthAll]; omega, by simpa [realsAll, or_imp, forall_and]
      using ⟨hs.2, hss.2⟩⟩

theorem Expr.fits_of_ofArray? {rs : List Reading} {d : ℕ} {e : Expr} (hrs : ∀ r ∈ rs, r.Fits d)
    (h : ofArray? rs = some e) : e.leastDepth ≤ d + 1 ∧ ∀ x ∈ e.reals, x.isFinite = true := by
  cases rs with
  | nil => simp [ofArray?] at h
  | cons tag rest =>
    obtain ⟨k, -, hk⟩ := Option.bind_eq_some_iff.1 h
    split at hk
    next =>
      exact fits_of_ofFields?
        (fun m hm => hrs m.2 (List.mem_cons_of_mem _ (List.of_mem_zip hm).2)) hk
    next => simp at hk

namespace Reading

mutual

theorem fits_ofJson : ∀ v : Json, (ofJson v).Fits v.depth
  | .arr items => by
    have hitems := fits_ofItems items
    exact {
      json := le_rfl
      expr e he := Expr.fits_of_ofArray? hitems he
      exprs es hes := (Expr.fits_of_mapM hitems hes).imp_left Nat.lt_succ_of_le
      stmt s hs := by simp [ofJson] at hs
      stmts ss hss := (Stmt.fits_of_mapM hitems hss).imp_left Nat.lt_succ_of_le }
  | .obj members => by
    have hmembers := fits_ofMembers members
    exact {
      json := le_rfl
      expr e he := by
        obtain ⟨_, -, hk⟩ := Option.bind_eq_some_iff.1 he
        obtain ⟨k, -, hk⟩ := Option.bind_eq_some_iff.1 hk
        exact Expr.fits_of_ofFields? hmembers hk
      exprs es hes := by simp [ofJson] at hes
      stmt s hs := by
        obtain ⟨line, -, hk⟩ := Option.bind_eq_some_iff.1 hs
        obtain ⟨_, -, hk⟩ := Option.bind_eq_some_iff.1 hk
        obtain ⟨k, -, hk⟩ := Option.bind_eq_some_iff.1 hk
        exact Stmt.fits_of_ofFields? hmembers hk
      stmts ss hss := by simp [ofJson] at hss }
  | .null | .bool _ | .num _ | .str _ => by constructor <;> simp [ofJson]

theorem fits_ofItems : ∀ items : List Json, ∀ r ∈ ofItems items, r.Fits (Json.depthItems items)
  | [] => by simp [ofItems]
  | v :: rest => by
    have hv := fits_ofJson v
    have hrest := fits_ofItems rest
    intro r hr
    rcases List.mem_cons.1 hr with rfl | hr
    · exact hv.mono (le_max_left _ _)
    · exact (hrest r hr).mono (le_max_right _ _)

theorem fits_ofMembers : ∀ members : List (String × Json), ∀ m ∈ ofMembers members,
    m.2.Fits (Json.depthMembers members)
  | [] => by simp [ofMembers]
  | (key, v) :: rest => by
    have hv := fits_ofJson v
    have hrest := fits_ofMembers rest
    intro m hm
    rcases List.mem_cons.1 hm with rfl | hm
    · exact hv.mono (le_max_left _ _)
    · exact (hrest m hm).mono (le_max_right _ _)

end

end Reading

namespace Script

theorem fits_of_readBody {items : List Json} {index : ℕ} {body : List Stmt}
    (h : readBody index items = .ok body) :
    Stmt.leastDepthAll body ≤ Json.depthItems items ∧
      ∀ x ∈ Stmt.realsAll body, x.isFinite = true := by
  induction items generalizing index body with
  | nil =>
    obtain rfl : [] = body := Except.ok.inj h
    exact ⟨le_rfl, by simp [Stmt.realsAll]⟩
  | cons v rest ih =>
    rw [readBody] at h
    split at h
    next => simp at h
    next s hs =>
      have hs := (Reading.fits_ofJson v).stmt s hs
      cases hrest : readBody (index + 1) rest with
      | error e => simp [hrest, Except.map] at h
      | ok ss =>
        obtain rfl : s :: ss = body := by simpa [hrest, Except.map] using h
        have hss := ih hrest
        refine ⟨?_, by simpa [Stmt.realsAll, or_imp, forall_and] using ⟨hs.2, hss.2⟩⟩
        rw [Stmt.leastDepthAll, Json.depthItems]
        omega

theorem depth_of_bodyItems? {v : Json} {items : List Json} (h : bodyItems? v = some items) :
    Json.depthItems items + 2 ≤ v.depth := by
  unfold bodyItems? at h
  split at h
  next members =>
    split at h
    next found hfound =>
      obtain rfl := Option.some.inj h
      obtain ⟨l₁, l₂, rfl, -⟩ := List.lookup_eq_some_iff.1 hfound
      have hle : (Json.arr found).depth ≤ Json.depthMembers (l₁ ++ ("body", .arr found) :: l₂) :=
        Json.depthMembers_le_iff.1 le_rfl ("body", .arr found) (by simp)
      simp only [Json.depth] at hle ⊢
      omega
    next => simp at h
  next => simp at h

/-- A loaded script has no more levels than a text may have, as long as its calls without arguments
do not say so, and its reals are finite. -/
theorem fits_of_load {text : String} {s : Script} (h : load text = .ok s) :
    Stmt.leastDepthAll s.body + 2 ≤ 127 ∧ ∀ x ∈ s.reals, x.isFinite = true := by
  unfold load at h
  split at h
  next => simp at h
  next v hv =>
    split at h
    next => simp at h
    next items hitems =>
      cases hbody : readBody 0 items with
      | error e => simp [hbody, Except.map] at h
      | ok body =>
        obtain rfl : ⟨body⟩ = s := by simpa [hbody, Except.map] using h
        obtain ⟨hle, hfinite⟩ := fits_of_readBody hbody
        have hread : v.depth ≤ 127 := Json.depth_le_of_read? hv
        have hdepth := depth_of_bodyItems? hitems
        exact ⟨by simp only; omega, hfinite⟩

theorem depth_toJson (s : Script) : s.toJson.depth = Json.depthItems (Stmt.toJsons s.body) + 2 := by
  simp [toJson, Json.depth, Json.depthMembers]

theorem load_pretty {v : Json} {items : List Json} (h : v.Proper) (hd : v.depth ≤ 127)
    (hitems : bodyItems? v = some items) : load v.pretty = (readBody 0 items).map Script.mk := by
  simp only [load, Json.read?_pretty h hd, hitems]

theorem load_dump_eq_notJson {s : Script} (h : 127 < s.toJson.depth) :
    load s.dump = .error .notJson := by
  have hread : Json.read? s.dump = none := Json.read?_pretty_eq_none s.proper_toJson h
  simp only [load, hread]

/-- A loaded script fits into a text, unless a call without arguments stands at the deepest
level. -/
theorem depth_toJson_le_iff {s : Script} (h : Stmt.leastDepthAll s.body + 2 ≤ 127) :
    s.toJson.depth ≤ 127 ↔ 127 ∉ s.bareLevels := by
  have hlevels := Stmt.levelsAll s.body
  rw [depth_toJson, show 127 = 125 + 2 from rfl, Nat.add_le_add_iff_right, hlevels.le_iff]
  constructor
  · rintro ⟨-, hlt⟩ hmem
    obtain ⟨l, hl, heq⟩ := List.mem_map.1 hmem
    have := hlt l hl
    omega
  · refine fun hnot => ⟨by omega, fun l hl => ?_⟩
    have hne : l ≠ 125 := fun heq => hnot (List.mem_map.2 ⟨l, hl, by omega⟩)
    have := hlevels.bare_le l hl
    omega

/-- Whatever the spelling of a text, the script loaded from it is written as a text that loads as
the same script. The one exception is a call without arguments at the deepest level: its empty list
of arguments is written one level below, and the text is refused. -/
theorem load_dump_of_load {text : String} {s : Script} (h : load text = .ok s) :
    load s.dump = if 127 ∈ s.bareLevels then .error .notJson else .ok s := by
  obtain ⟨hdepth, hreals⟩ := fits_of_load h
  have hiff := depth_toJson_le_iff hdepth
  split
  next hmem => exact load_dump_eq_notJson (by simpa using mt hiff.1 (not_not_intro hmem))
  next hnot =>
    have hitems : bodyItems? s.toJson = some (Stmt.toJsons s.body) := rfl
    rw [dump, load_pretty s.proper_toJson (hiff.2 hnot) hitems, Stmt.readBody_toJsons 0 hreals]
    rfl

/-- A call without arguments under `n` negations. -/
def negations (n : ℕ) : Expr := (Expr.unary .not)^[n] (.call "f" [])

def chain (n : ℕ) : Script := ⟨[.eval 0 (negations n)]⟩

/-- The same expression with no word on the arguments. -/
def bareNegations (n : ℕ) : Json :=
  (fun v => .obj [("kind", .str "unary_op"), ("op", .str "not"), ("operand", v)])^[n]
    (.obj [("kind", .str "call"), ("func", .str "f")])

def bareStatement (n : ℕ) : Json := .obj [("kind", .str "expr"), ("value", bareNegations n)]

def chainText (n : ℕ) : String := Json.pretty (.obj [("body", .arr [bareStatement n])])

theorem bareNegations_succ (n : ℕ) : bareNegations (n + 1) =
    .obj [("kind", .str "unary_op"), ("op", .str "not"), ("operand", bareNegations n)] :=
  Function.iterate_succ_apply' ..

theorem negations_succ (n : ℕ) : negations (n + 1) = .unary .not (negations n) :=
  Function.iterate_succ_apply' ..

theorem depth_bareNegations (n : ℕ) : (bareNegations n).depth = n + 1 := by
  induction n with
  | zero => rfl
  | succ n ih => simp [bareNegations_succ, Json.depth, Json.depthMembers, ih]

theorem proper_bareNegations (n : ℕ) : (bareNegations n).Proper := by
  induction n with
  | zero => exact ⟨by simp, trivial, trivial, trivial⟩
  | succ n ih =>
    rw [bareNegations_succ]
    exact ⟨by simp, trivial, trivial, ih, trivial⟩

theorem expr_ofJson_bareNegations (n : ℕ) :
    (Reading.ofJson (bareNegations n)).expr = some (negations n) := by
  induction n with
  | zero => rfl
  | succ n ih =>
    rw [bareNegations_succ, negations_succ]
    show (do some (.unary .not (← (Reading.ofJson (bareNegations n)).expr)) : Option Expr) = _
    rw [ih]
    rfl

theorem bareLevels_negations (n : ℕ) : (negations n).bareLevels = [n + 1] := by
  induction n with
  | zero => rfl
  | succ n ih => rw [negations_succ, Expr.bareLevels, ih, List.map_singleton]

theorem bareLevels_chain (n : ℕ) : (chain n).bareLevels = [n + 4] := by
  simp [bareLevels, chain, Stmt.bareLevelsAll, Stmt.bareLevels, bareLevels_negations]

theorem load_chainText {n : ℕ} (h : n ≤ 123) : load (chainText n) = .ok (chain n) := by
  have hproper : Json.Proper (.obj [("body", .arr [bareStatement n])]) :=
    ⟨by simp, ⟨⟨by simp, trivial, proper_bareNegations n, trivial⟩, trivial⟩, trivial⟩
  have hdepth : Json.depth (.obj [("body", .arr [bareStatement n])]) ≤ 127 := by
    simp [bareStatement, Json.depth, Json.depthMembers, Json.depthItems, depth_bareNegations]
    omega
  have hstmt : Stmt.ofJson? (bareStatement n) = some (.eval 0 (negations n)) := by
    show (do some (.eval 0 (← (Reading.ofJson (bareNegations n)).expr)) : Option Stmt) = _
    rw [expr_ofJson_bareNegations]
    rfl
  rw [chainText, load_pretty hproper hdepth rfl, readBody, hstmt]
  rfl

/-- Under 122 negations a call stands one level above the deepest. -/
theorem load_dump_chain :
    load (chainText 122) = .ok (chain 122) ∧ load (chain 122).dump = .ok (chain 122) := by
  have hload : load (chainText 122) = .ok (chain 122) := load_chainText (by decide)
  have hdump := load_dump_of_load hload
  rw [if_neg (by simp [bareLevels_chain])] at hdump
  exact ⟨hload, hdump⟩

/-- Not every text that loads gives a script that can be loaded again once it is written. -/
theorem not_every_dump_loads :
    ¬ ∀ (text : String) (s : Script), load text = .ok s → load s.dump = .ok s := by
  intro hall
  have hload : load (chainText 123) = .ok (chain 123) := load_chainText le_rfl
  have hdepth : ¬ (chain 123).toJson.depth ≤ 127 := by
    rw [depth_toJson_le_iff (fits_of_load hload).1, bareLevels_chain]
    simp
  have hdump := hall _ _ hload
  rw [load_dump_eq_notJson (by omega)] at hdump
  simp at hdump

end Script

end TreeAsm
