import TreeAsm.Proofs.JsonText
import TreeAsm.Tree.Encode

/-! The text of a script loads as this script. Each node is read back from the readings of its
parts; what is written can stand in a JSON text, as no object has a key twice and all integers are
short enough. -/
namespace TreeAsm

def Binary64.isFinite : Binary64 → Bool
  | .finite _ => true
  | _ => false

def Literal.reals : Literal → List Binary64
  | .real x => [x]
  | _ => []

namespace Expr

mutual

/-- The real literals of an expression. -/
def reals : Expr → List Binary64
  | .literal v => v.reals
  | .name _ => []
  | .binary _ l r => reals l ++ reals r
  | .unary _ e => reals e
  | .call _ args => realsAll args
  | .unsupported _ => []

def realsAll : List Expr → List Binary64
  | [] => []
  | e :: r => reals e ++ realsAll r

end

end Expr

namespace Stmt

mutual

/-- The real literals of a statement. -/
def reals : Stmt → List Binary64
  | .assign _ targets value => Expr.realsAll targets ++ value.reals
  | .update _ target _ value => target.reals ++ value.reals
  | .ifElse _ test body orelse => test.reals ++ (realsAll body ++ realsAll orelse)
  | .whileLoop _ test body => test.reals ++ realsAll body
  | .define _ _ _ body => realsAll body
  | .ret _ value => (value.map Expr.reals).getD []
  | .eval _ value => value.reals
  | .pass _ => []
  | .unsupported .. => []

def realsAll : List Stmt → List Binary64
  | [] => []
  | s :: r => reals s ++ realsAll r

end

end Stmt

def Script.reals (s : Script) : List Binary64 := Stmt.realsAll s.body

theorem Literal.ofJson?_toJson {v : Literal} (h : ∀ x ∈ v.reals, x.isFinite = true) :
    ofJson? v.toJson = some v := by
  cases v with
  | int n =>
    have hle : -0x8000000000000000 ≤ n.toInt := n.le_toInt
    have hlt : n.toInt < 0x8000000000000000 := n.toInt_lt
    simp [toJson, ofJson?, Json.int64?, hle, hlt]
  | real x =>
    have hx : x.isFinite = true := h x List.mem_cons_self
    cases x with
    | finite x => rfl
    | infinite negative => simp [Binary64.isFinite] at hx
    | nan => simp [Binary64.isFinite] at hx
  | bool b => rfl
  | str s => rfl

theorem Reading.json_ofJson (v : Json) : (ofJson v).json = v := by
  cases v <;> rfl

theorem Param.ofJson?_toJson (p : Param) : ofJson? p.toJson = some p := by
  obtain ⟨name, annotation⟩ := p
  cases annotation <;> rfl

theorem Param.mapM_ofJson?_toJson (ps : List Param) : (ps.map toJson).mapM ofJson? = some ps := by
  induction ps with
  | nil => rfl
  | cons p r ih => simp [ofJson?_toJson, ih]

namespace Expr

mutual

theorem expr_ofJson_toJson : ∀ e : Expr, (∀ x ∈ e.reals, x.isFinite = true) →
    (Reading.ofJson e.toJson).expr = some e
  | .literal v, h => by
    have hv : Literal.ofJson? v.toJson = some v := Literal.ofJson?_toJson h
    show (do some (.literal (← Literal.ofJson? (Reading.ofJson v.toJson).json)) : Option Expr) = _
    simp [Reading.json_ofJson, hv]
  | .name id, _ => rfl
  | .binary op l r, h => by
    have hl := expr_ofJson_toJson l fun x hx => h x (List.mem_append_left _ hx)
    have hr := expr_ofJson_toJson r fun x hx => h x (List.mem_append_right _ hx)
    show (do
      let op ← BinaryOp.ofSymbol? op.symbol
      some (.binary op (← (Reading.ofJson l.toJson).expr) (← (Reading.ofJson r.toJson).expr)) :
        Option Expr) = _
    simp [hl, hr]
  | .unary op e, h => by
    have he := expr_ofJson_toJson e h
    show (do
      let op ← UnaryOp.ofSymbol? op.symbol
      some (.unary op (← (Reading.ofJson e.toJson).expr)) : Option Expr) = _
    simp [he]
  | .call f args, h => by
    have hargs := exprs_ofItems_toJsons args h
    show (do some (.call f (← (Reading.ofItems (toJsons args)).mapM (·.expr))) : Option Expr) = _
    simp [hargs]
  | .unsupported c, _ => rfl

theorem exprs_ofItems_toJsons : ∀ es : List Expr, (∀ x ∈ realsAll es, x.isFinite = true) →
    (Reading.ofItems (toJsons es)).mapM (·.expr) = some es
  | [], _ => rfl
  | e :: r, h => by
    have he := expr_ofJson_toJson e fun x hx => h x (List.mem_append_left _ hx)
    have hr := exprs_ofItems_toJsons r fun x hx => h x (List.mem_append_right _ hx)
    simp [toJsons, Reading.ofItems, he, hr]

end

end Expr

namespace Stmt

theorem line?_toNat (line : UInt32) : Json.line? (.num (.int line.toNat)) = some line := by
  have hlt : (line.toNat : ℤ) < 0x100000000 := by exact_mod_cast line.toNat_lt
  simp [Json.line?, hlt]

/-- A statement is read from its fields once the line and the kind are known. -/
theorem stmt_ofJson_node (line : UInt32) {kind : String} {k : Kind}
    (hk : kinds.lookup kind = some k) (fields : List (String × Json)) :
    (Reading.ofJson (node line kind fields)).stmt =
      ofFields? (Reading.ofMembers
        (("line", .num (.int line.toNat)) :: ("kind", .str kind) :: fields)) line k := by
  show (do
    let l ← Json.line? (.num (.int line.toNat))
    ofFields? (Reading.ofMembers
      (("line", .num (.int line.toNat)) :: ("kind", .str kind) :: fields)) l
      (← kinds.lookup kind)) = _
  simp [line?_toNat, hk]

theorem exists_toJson_eq_obj (e : Expr) : ∃ members, e.toJson = .obj members := by
  cases e <;> exact ⟨_, rfl⟩

mutual

theorem stmt_ofJson_toJson : ∀ s : Stmt, (∀ x ∈ s.reals, x.isFinite = true) →
    (Reading.ofJson s.toJson).stmt = some s
  | .assign line targets value, h => by
    have ht := Expr.exprs_ofItems_toJsons targets fun x hx => h x (List.mem_append_left _ hx)
    have hv := value.expr_ofJson_toJson fun x hx => h x (List.mem_append_right _ hx)
    rw [toJson, stmt_ofJson_node line rfl]
    show (do some (.assign line (← (Reading.ofItems (Expr.toJsons targets)).mapM (·.expr))
      (← (Reading.ofJson value.toJson).expr)) : Option Stmt) = _
    simp [ht, hv]
  | .update line target op value, h => by
    have ht := target.expr_ofJson_toJson fun x hx => h x (List.mem_append_left _ hx)
    have hv := value.expr_ofJson_toJson fun x hx => h x (List.mem_append_right _ hx)
    rw [toJson, stmt_ofJson_node line rfl]
    show (do
      let op ← BinaryOp.ofSymbol? op.symbol
      some (.update line (← (Reading.ofJson target.toJson).expr) op
        (← (Reading.ofJson value.toJson).expr)) :
        Option Stmt) = _
    simp [ht, hv]
  | .ifElse line test body orelse, h => by
    have ht := test.expr_ofJson_toJson fun x hx => h x (List.mem_append_left _ hx)
    have hb := stmts_ofItems_toJsons body fun x hx =>
      h x (List.mem_append_right _ (List.mem_append_left _ hx))
    have ho := stmts_ofItems_toJsons orelse fun x hx =>
      h x (List.mem_append_right _ (List.mem_append_right _ hx))
    rw [toJson, stmt_ofJson_node line rfl]
    show (do some (.ifElse line (← (Reading.ofJson test.toJson).expr)
      (← (Reading.ofItems (toJsons body)).mapM (·.stmt))
      (← (Reading.ofItems (toJsons orelse)).mapM (·.stmt))) : Option Stmt) = _
    simp [ht, hb, ho]
  | .whileLoop line test body, h => by
    have ht := test.expr_ofJson_toJson fun x hx => h x (List.mem_append_left _ hx)
    have hb := stmts_ofItems_toJsons body fun x hx => h x (List.mem_append_right _ hx)
    rw [toJson, stmt_ofJson_node line rfl]
    show (do some (.whileLoop line (← (Reading.ofJson test.toJson).expr)
      (← (Reading.ofItems (toJsons body)).mapM (·.stmt))) : Option Stmt) = _
    simp [ht, hb]
  | .define line name params body, h => by
    have hp := Param.mapM_ofJson?_toJson params
    have hb := stmts_ofItems_toJsons body h
    rw [toJson, stmt_ofJson_node line rfl]
    show (do some (.define line name (← (params.map Param.toJson).mapM Param.ofJson?)
      (← (Reading.ofItems (toJsons body)).mapM (·.stmt))) : Option Stmt) = _
    simp [hp, hb]
  | .ret line none, _ => by
    rw [toJson, stmt_ofJson_node line rfl]
    rfl
  | .ret line (some e), h => by
    have he := e.expr_ofJson_toJson h
    obtain ⟨members, hobj⟩ := exists_toJson_eq_obj e
    rw [toJson, stmt_ofJson_node line rfl, Option.map_some, Option.getD_some]
    rw [hobj] at he ⊢
    show (do some (.ret line (← (Reading.ofJson (.obj members)).expr.map some)) : Option Stmt) = _
    simp [he]
  | .eval line value, h => by
    have hv := value.expr_ofJson_toJson h
    rw [toJson, stmt_ofJson_node line rfl]
    show (do some (.eval line (← (Reading.ofJson value.toJson).expr)) : Option Stmt) = _
    simp [hv]
  | .pass line, _ => by
    rw [toJson, stmt_ofJson_node line rfl]
    rfl
  | .unsupported line construct, _ => by
    rw [toJson, stmt_ofJson_node line rfl]
    rfl

theorem stmts_ofItems_toJsons : ∀ ss : List Stmt, (∀ x ∈ realsAll ss, x.isFinite = true) →
    (Reading.ofItems (toJsons ss)).mapM (·.stmt) = some ss
  | [], _ => rfl
  | s :: r, h => by
    have hs := stmt_ofJson_toJson s fun x hx => h x (List.mem_append_left _ hx)
    have hr := stmts_ofItems_toJsons r fun x hx => h x (List.mem_append_right _ hx)
    simp [toJsons, Reading.ofItems, hs, hr]

end

theorem readBody_toJsons (index : ℕ) {ss : List Stmt} (h : ∀ x ∈ realsAll ss, x.isFinite = true) :
    Script.readBody index (toJsons ss) = .ok ss := by
  induction ss generalizing index with
  | nil => rfl
  | cons s r ih =>
    have hs : ofJson? s.toJson = some s :=
      stmt_ofJson_toJson s fun x hx => h x (List.mem_append_left _ hx)
    have hr := ih (index + 1) fun x hx => h x (List.mem_append_right _ hx)
    simp only [toJsons, Script.readBody, hs, hr]
    rfl

end Stmt

theorem Literal.proper_toJson (v : Literal) : v.toJson.Proper := by
  cases v with
  | int n =>
    have hle : -0x8000000000000000 ≤ n.toInt := n.le_toInt
    have hlt : n.toInt < 0x8000000000000000 := n.toInt_lt
    have hfits : Json.Number.fits n.toInt = true := by
      simp only [Json.Number.fits, decide_eq_true_eq]
      omega
    exact ⟨by simp, hfits, trivial⟩
  | real x => cases x <;> exact ⟨by simp, trivial, trivial⟩
  | bool b => exact ⟨by simp, trivial, trivial⟩
  | str s => exact ⟨by simp, trivial, trivial⟩

theorem Param.proper_toJson (p : Param) : p.toJson.Proper := by
  obtain ⟨name, annotation⟩ := p
  cases annotation <;> exact ⟨by simp, trivial, trivial, trivial⟩

theorem Param.properItems_map_toJson (ps : List Param) : Json.ProperItems (ps.map toJson) := by
  induction ps with
  | nil => trivial
  | cons p r ih => exact ⟨p.proper_toJson, ih⟩

namespace Expr

mutual

theorem proper_toJson : ∀ e : Expr, e.toJson.Proper
  | .literal v => ⟨by simp, trivial, v.proper_toJson, trivial⟩
  | .name id => ⟨by simp, trivial, trivial, trivial⟩
  | .binary op l r => ⟨by simp, trivial, trivial, proper_toJson l, proper_toJson r, trivial⟩
  | .unary op e => ⟨by simp, trivial, trivial, proper_toJson e, trivial⟩
  | .call f args => ⟨by simp, trivial, trivial, properItems_toJsons args, trivial⟩
  | .unsupported c => ⟨by simp, trivial, trivial, trivial⟩

theorem properItems_toJsons : ∀ es : List Expr, Json.ProperItems (toJsons es)
  | [] => trivial
  | e :: r => ⟨proper_toJson e, properItems_toJsons r⟩

end

end Expr

namespace Stmt

/-- The line and the kind of a node can stand before any fields with other keys. -/
theorem proper_node (line : UInt32) (kind : String) {fields : List (String × Json)}
    (hkeys : ("line" :: "kind" :: fields.map Prod.fst).Nodup) (h : Json.ProperMembers fields) :
    (node line kind fields).Proper := by
  have hlt : (line.toNat : ℤ) < 0x100000000 := by exact_mod_cast line.toNat_lt
  have hfits : Json.Number.fits line.toNat = true := by
    simp only [Json.Number.fits, decide_eq_true_eq]
    omega
  exact ⟨hkeys, hfits, trivial, h⟩

mutual

theorem proper_toJson : ∀ s : Stmt, s.toJson.Proper
  | .assign line targets value =>
    proper_node line _ (by simp) ⟨Expr.properItems_toJsons targets, value.proper_toJson, trivial⟩
  | .update line target op value =>
    proper_node line _ (by simp) ⟨target.proper_toJson, trivial, value.proper_toJson, trivial⟩
  | .ifElse line test body orelse =>
    proper_node line _ (by simp)
      ⟨test.proper_toJson, properItems_toJsons body, properItems_toJsons orelse, trivial⟩
  | .whileLoop line test body =>
    proper_node line _ (by simp) ⟨test.proper_toJson, properItems_toJsons body, trivial⟩
  | .define line name params body =>
    proper_node line _ (by simp)
      ⟨trivial, Param.properItems_map_toJson params, properItems_toJsons body, trivial⟩
  | .ret line none => proper_node line _ (by simp) ⟨trivial, trivial⟩
  | .ret line (some e) => proper_node line _ (by simp) ⟨e.proper_toJson, trivial⟩
  | .eval line value => proper_node line _ (by simp) ⟨value.proper_toJson, trivial⟩
  | .pass line => proper_node line _ (by simp) trivial
  | .unsupported line construct => proper_node line _ (by simp) ⟨trivial, trivial⟩

theorem properItems_toJsons : ∀ ss : List Stmt, Json.ProperItems (toJsons ss)
  | [] => trivial
  | s :: r => ⟨proper_toJson s, properItems_toJsons r⟩

end

end Stmt

namespace Script

theorem proper_toJson (s : Script) : s.toJson.Proper :=
  ⟨by simp, Stmt.properItems_toJsons s.body, trivial⟩

/-- Loading the text of a script gives the script. -/
theorem load_dump {s : Script} (hreals : ∀ x ∈ s.reals, x.isFinite = true)
    (hdepth : s.toJson.depth ≤ 127) : load s.dump = .ok s := by
  have hread : Json.read? s.dump = some s.toJson := Json.read?_pretty s.proper_toJson hdepth
  have hbody : bodyItems? s.toJson = some (Stmt.toJsons s.body) := rfl
  have hstmts := Stmt.readBody_toJsons 0 hreals
  simp only [load, hread, hbody, hstmts]
  rfl

theorem one_lt_finiteCount : 1 < Binary64.finiteCount := by decide

theorem pred_finiteCount_lt : Binary64.finiteCount - 1 < Binary64.finiteCount := by decide

/-- Every kind of node, with texts and numbers at the ends of what can be written. -/
def specimen : Script where
  body :=
    [.assign 0 [.name "a\"\\/\n\x00", .name "é\u2028𝄞"]
        (.binary .or (.literal (.real (.finite (.zero true))))
          (.unary .not (.literal (.real (.finite ⟨false, ⟨1, one_lt_finiteCount⟩⟩))))),
      .update 4294967295 (.unsupported "") .ne
        (.literal (.real (.finite ⟨true, ⟨Binary64.finiteCount - 1, pred_finiteCount_lt⟩⟩))),
      .define 3 "f" [⟨"x", none⟩, ⟨"x", some "real"⟩]
        [.whileLoop 4 (.call "g" [.literal (.int (-9223372036854775808)), .literal (.bool false)])
          [.ifElse 5 (.literal (.str "\x7f")) [.ret 6 none] [.ret 7 (some (.name "x"))], .pass 8]],
      .eval 9 (.call "" []), .unsupported 10 "class"]

theorem load_dump_specimen :
    (∀ x ∈ specimen.reals, x.isFinite = true) ∧ specimen.toJson.depth ≤ 127 ∧
    load specimen.dump = .ok specimen := by
  have hreals : ∀ x ∈ specimen.reals, x.isFinite = true := by decide
  have hdepth : specimen.toJson.depth ≤ 127 := by decide
  exact ⟨hreals, hdepth, load_dump hreals hdepth⟩

end Script
end TreeAsm
