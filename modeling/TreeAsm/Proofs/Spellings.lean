import TreeAsm.Proofs.TreeText

/-! Spellings of a tree. A node can be written in several ways: with its keys in any order and
others beside them, with defaults written out or not, an expression or a parameter also as an array,
a kind also as a number, an operator under another sign or as an object. All of these, at any places
of a statement, are read as the same statement. -/
namespace TreeAsm

/-- What a JSON value stands for at a place of a program tree. -/
inductive Position where
  | statement
  | expression
  | parameter
  | statements
  | expressions
  | parameters
  | statementKind
  | expressionKind
  | binaryOp
  | unaryOp

/-- A field of a node: what it is taken for when it is left out, if it may be, and what it holds, if
that can be spelled in several ways. -/
structure NodeField where
  key : String
  fallback : Option Json
  part : Option Position

/-- The fields beside the kind, in the order of the array form. -/
def Expr.Kind.declared : Expr.Kind → List NodeField
  | .literal => [⟨"value", none, none⟩]
  | .name => [⟨"id", none, none⟩]
  | .binary =>
    [⟨"op", none, some .binaryOp⟩, ⟨"left", none, some .expression⟩,
      ⟨"right", none, some .expression⟩]
  | .unary => [⟨"op", none, some .unaryOp⟩, ⟨"operand", none, some .expression⟩]
  | .call => [⟨"func", none, none⟩, ⟨"args", some (.arr []), some .expressions⟩]
  | .unsupported => [⟨"construct", none, none⟩]

/-- The fields beside the line and the kind. -/
def Stmt.Kind.declared : Stmt.Kind → List NodeField
  | .assign => [⟨"targets", none, some .expressions⟩, ⟨"value", none, some .expression⟩]
  | .update =>
    [⟨"target", none, some .expression⟩, ⟨"op", none, some .binaryOp⟩,
      ⟨"value", none, some .expression⟩]
  | .ifElse =>
    [⟨"test", none, some .expression⟩, ⟨"body", none, some .statements⟩,
      ⟨"orelse", some (.arr []), some .statements⟩]
  | .whileLoop => [⟨"test", none, some .expression⟩, ⟨"body", none, some .statements⟩]
  | .define =>
    [⟨"name", none, none⟩, ⟨"params", some (.arr []), some .parameters⟩,
      ⟨"body", none, some .statements⟩]
  | .ret => [⟨"value", some .null, some .expression⟩]
  | .eval => [⟨"value", none, some .expression⟩]
  | .pass => []
  | .unsupported => [⟨"construct", none, none⟩]

/-- The words for the kinds of expressions, in the order of their numbers. -/
def Expr.Kind.words : List (String × Expr.Kind) :=
  [("literal", .literal), ("name", .name), ("bin_op", .binary), ("unary_op", .unary),
    ("call", .call), ("unsupported", .unsupported)]

/-- The words for the kinds of statements, in the order of their numbers. -/
def Stmt.Kind.words : List (String × Stmt.Kind) :=
  [("assign", .assign), ("aug_assign", .update), ("if", .ifElse), ("while", .whileLoop),
    ("function_def", .define), ("return", .ret), ("expr", .eval), ("pass", .pass),
    ("unsupported", .unsupported)]

def Expr.Kind.node (k : Expr.Kind) : List NodeField :=
  ⟨"kind", none, some .expressionKind⟩ :: k.declared

def Stmt.Kind.node (k : Stmt.Kind) : List NodeField :=
  ⟨"line", some (.num (.int 0)), none⟩ :: ⟨"kind", none, some .statementKind⟩ :: k.declared

def Param.node : List NodeField := [⟨"name", none, none⟩, ⟨"annotation", some .null, none⟩]

namespace Position

/-- The fields of the node that an object with these members is at this place. -/
def node? : Position → List (String × Json) → Option (List NodeField)
  | .statement, members => do some (← (← members.lookup "kind").tag? Stmt.Kind.words).node
  | .expression, members => do some (← (← members.lookup "kind").tag? Expr.Kind.words).node
  | .parameter, _ => some Param.node
  | _, _ => none

/-- The fields of the node that an array of these values is at this place. -/
def arrayNode? : Position → List Json → Option (List NodeField)
  | .expression, tag :: _ => do some (← tag.tag? Expr.Kind.words).node
  | .parameter, _ => some Param.node
  | _, _ => none

/-- What stands in a list. -/
def element? : Position → Option Position
  | .statements => some .statement
  | .expressions => some .expression
  | .parameters => some .parameter
  | _ => none

def isOperator : Position → Bool
  | .binaryOp | .unaryOp => true
  | _ => false

end Position

/-- Two values that spell the same at a place. The rules say what may be changed at one place; with
those for parts of nodes and lists and the last three, any number of changes can be made at any
depth. -/
inductive Respelled : Position → Json → Json → Prop where
  | statementKind {i : ℕ} {name : String} {k : Stmt.Kind}
      (h : Stmt.Kind.words[i]? = some (name, k)) :
      Respelled .statementKind (.str name) (.num (.int i))
  | expressionKind {i : ℕ} {name : String} {k : Expr.Kind}
      (h : Expr.Kind.words[i]? = some (name, k)) :
      Respelled .expressionKind (.str name) (.num (.int i))
  | equal : Respelled .binaryOp (.str "==") (.str "=")
  | unequal : Respelled .binaryOp (.str "!=") (.str "<>")
  | operator {p : Position} (hp : p.isOperator = true) (sign : String) :
      Respelled p (.str sign) (.obj [(sign, .null)])
  /-- The keys of an object are distinct, so their order does not matter. -/
  | permuted {p : Position} {members members' : List (String × Json)} {node : List NodeField}
      (hnode : p.node? members = some node) (hdistinct : (members.map Prod.fst).Nodup)
      (h : members.Perm members') :
      Respelled p (.obj members) (.obj members')
  /-- A key that is no field of the node, with any value. -/
  | extra {p : Position} {a b : List (String × Json)} {node : List NodeField}
      (hnode : p.node? (a ++ b) = some node)
      {key : String} (hkey : ∀ f ∈ node, f.key ≠ key) (v : Json) :
      Respelled p (.obj (a ++ b)) (.obj (a ++ (key, v) :: b))
  /-- A field that is left out is written with what it is taken for. -/
  | default {p : Position} {a b : List (String × Json)} {node : List NodeField}
      (hnode : p.node? (a ++ b) = some node)
      {f : NodeField} (hf : f ∈ node) {v : Json} (hv : f.fallback = some v)
      (hmissing : (a ++ b).lookup f.key = none) :
      Respelled p (.obj (a ++ b)) (.obj (a ++ (f.key, v) :: b))
  /-- A node as the array of its fields in order. Fields at the end may be left out if they are
  missing in the object or written with what they are taken for. -/
  | array {p : Position} {members : List (String × Json)} {items : List Json}
      {node : List NodeField}
      (hnode : p.node? members = some node) (harray : p.arrayNode? items = some node)
      (hlength : items.length ≤ node.length)
      (hitems : ∀ x ∈ node.zip items, members.lookup x.1.key = some x.2)
      (hrest : ∀ f ∈ node.drop items.length, ∃ v, f.fallback = some v ∧
        (members.lookup f.key = none ∨ members.lookup f.key = some v)) :
      Respelled p (.obj members) (.arr items)
  | member {p q : Position} {a b : List (String × Json)} {node : List NodeField}
      {f : NodeField} {v w : Json}
      (hnode : p.node? (a ++ (f.key, v) :: b) = some node) (hf : f ∈ node) (hq : f.part = some q)
      (h : Respelled q v w) :
      Respelled p (.obj (a ++ (f.key, v) :: b)) (.obj (a ++ (f.key, w) :: b))
  | element {p q : Position} {a b : List Json} {node : List NodeField} {f : NodeField} {v w : Json}
      (hnode : p.arrayNode? (a ++ v :: b) = some node) (hf : node[a.length]? = some f)
      (hq : f.part = some q)
      (h : Respelled q v w) : Respelled p (.arr (a ++ v :: b)) (.arr (a ++ w :: b))
  | item {p q : Position} {a b : List Json} {v w : Json} (hq : p.element? = some q)
      (h : Respelled q v w) :
      Respelled p (.arr (a ++ v :: b)) (.arr (a ++ w :: b))
  | refl (p : Position) (v : Json) : Respelled p v v
  | symm {p : Position} {v w : Json} (h : Respelled p v w) : Respelled p w v
  | trans {p : Position} {u v w : Json} (h : Respelled p u v) (h' : Respelled p v w) :
      Respelled p u w

/-! ### What a place asks of a value -/

/-- The readings of two values agree in what is asked for at the place. An expression that may be
missing is told apart from null. -/
def Position.Alike : Position → Reading → Reading → Prop
  | .statement, r, r' => r.stmt = r'.stmt
  | .expression, r, r' => r.expr = r'.expr ∧ (r.json = .null ↔ r'.json = .null)
  | .parameter, r, r' => Param.ofJson? r.json = Param.ofJson? r'.json
  | .statements, r, r' => r.stmts = r'.stmts
  | .expressions, r, r' => r.exprs = r'.exprs
  | .parameters, r, r' => Stmt.params? r = Stmt.params? r'
  | .statementKind, r, r' => r.json.tag? Stmt.kinds = r'.json.tag? Stmt.kinds
  | .expressionKind, r, r' => r.json.tag? Expr.kinds = r'.json.tag? Expr.kinds
  | .binaryOp, r, r' =>
    r.json.operator?.bind BinaryOp.ofSymbol? = r'.json.operator?.bind BinaryOp.ofSymbol?
  | .unaryOp, r, r' =>
    r.json.operator?.bind UnaryOp.ofSymbol? = r'.json.operator?.bind UnaryOp.ofSymbol?

namespace Position.Alike

variable {p : Position} {r r' r'' : Reading}

theorem refl (p : Position) (r : Reading) : p.Alike r r := by
  cases p with
  | expression => exact ⟨rfl, Iff.rfl⟩
  | _ => rfl

theorem symm (h : p.Alike r r') : p.Alike r' r := by
  cases p with
  | expression => exact ⟨h.1.symm, h.2.symm⟩
  | _ => exact Eq.symm h

theorem trans (h : p.Alike r r') (h' : p.Alike r' r'') : p.Alike r r'' := by
  cases p with
  | expression => exact ⟨h.1.trans h'.1, h.2.trans h'.2⟩
  | _ => exact Eq.trans h h'

end Position.Alike

namespace NodeField

/-- What is read for the field: its value, or what it is taken for when it is left out. -/
def reading (f : NodeField) (fs : Fields) : Option Reading :=
  (fs.lookup f.key).or (f.fallback.map Reading.ofJson)

def Same (f : NodeField) (r r' : Reading) : Prop :=
  match f.part with
  | none => r.json = r'.json
  | some p => p.Alike r r'

theorem Same.refl (f : NodeField) (r : Reading) : f.Same r r := by
  unfold Same
  split
  · rfl
  · exact .refl _ r

end NodeField

namespace Fields

/-- The field holds the same in both. -/
def AgreeAt (f : NodeField) (fs fs' : Fields) : Prop :=
  Option.Rel f.Same (f.reading fs) (f.reading fs')

def Agree (node : List NodeField) (fs fs' : Fields) : Prop := ∀ f ∈ node, AgreeAt f fs fs'

variable {node : List NodeField} {fs fs' : Fields} {key : String} {part : Option Position}

theorem AgreeAt.of_reading_eq {f : NodeField} (h : f.reading fs = f.reading fs') :
    AgreeAt f fs fs' := by
  rw [AgreeAt, h]
  cases f.reading fs' with
  | none => exact .none
  | some r => exact .some (.refl f r)

theorem AgreeAt.of_lookup_eq {f : NodeField} (h : fs.lookup f.key = fs'.lookup f.key) :
    AgreeAt f fs fs' := by
  refine .of_reading_eq ?_
  rw [NodeField.reading, NodeField.reading, h]

theorem AgreeAt.bind_eq {f : NodeField} {β : Type} {g : Reading → Option β} (h : AgreeAt f fs fs')
    (hg : ∀ r r', f.Same r r' → g r = g r') : (f.reading fs).bind g = (f.reading fs').bind g := by
  unfold AgreeAt at h
  generalize f.reading fs = o, f.reading fs' = o' at h
  cases h with
  | none => rfl
  | some h => exact hg _ _ h

/-- A field that has to be there. -/
theorem AgreeAt.lookup_bind_eq {β : Type} {g : Reading → Option β}
    (h : AgreeAt ⟨key, none, part⟩ fs fs')
    (hg : ∀ r r', NodeField.Same ⟨key, none, part⟩ r r' → g r = g r') :
    (fs.lookup key).bind g = (fs'.lookup key).bind g := by
  have hbind := h.bind_eq hg
  simpa only [NodeField.reading, Option.map_none, Option.or_none] using hbind

/-- A field that may be left out. -/
theorem AgreeAt.match_eq {β : Type} {v : Json} {missing : Option β} {g : Reading → Option β}
    (h : AgreeAt ⟨key, some v, part⟩ fs fs') (hmissing : g (.ofJson v) = missing)
    (hg : ∀ r r', NodeField.Same ⟨key, some v, part⟩ r r' → g r = g r') :
    (match fs.lookup key with
      | none => missing
      | some r => g r) =
    match fs'.lookup key with
      | none => missing
      | some r => g r := by
  have hread : ∀ gs : Fields, (match gs.lookup key with
      | none => missing
      | some r => g r) = (NodeField.reading ⟨key, some v, part⟩ gs).bind g := by
    intro gs
    unfold NodeField.reading
    cases gs.lookup key with
    | none => exact hmissing.symm
    | some r => rfl
  rw [hread, hread]
  exact h.bind_eq hg

theorem json?_eq (h : AgreeAt ⟨key, none, none⟩ fs fs') : fs.json? key = fs'.json? key := by
  simp only [json?, Option.map_eq_bind]
  exact h.lookup_bind_eq fun r r' hr => congrArg some hr

theorem text?_eq (h : AgreeAt ⟨key, none, none⟩ fs fs') : fs.text? key = fs'.text? key := by
  rw [text?, text?, json?_eq h]

theorem json?_or_eq {v : Json} (h : AgreeAt ⟨key, some v, none⟩ fs fs') :
    (fs.json? key).or (some v) = (fs'.json? key).or (some v) := by
  have hread : ∀ gs : Fields, (gs.json? key).or (some v) =
      (NodeField.reading ⟨key, some v, none⟩ gs).bind fun r => some r.json := by
    intro gs
    unfold json? NodeField.reading
    cases gs.lookup key with
    | none => exact congrArg some (Reading.json_ofJson v).symm
    | some r => rfl
  rw [hread, hread]
  exact h.bind_eq fun r r' hr => congrArg some hr

theorem expr?_eq (h : AgreeAt ⟨key, none, some .expression⟩ fs fs') :
    fs.expr? key = fs'.expr? key :=
  h.lookup_bind_eq fun _ _ hr => And.left hr

theorem exprs?_eq (h : AgreeAt ⟨key, none, some .expressions⟩ fs fs') :
    fs.exprs? key = fs'.exprs? key :=
  h.lookup_bind_eq fun _ _ hr => hr

theorem stmts?_eq (h : AgreeAt ⟨key, none, some .statements⟩ fs fs') :
    fs.stmts? key = fs'.stmts? key :=
  h.lookup_bind_eq fun _ _ hr => hr

/-- The operator of a node, whatever is done with it. -/
theorem operator_bind_eq {α β : Type} {p : Position} {ofSymbol? : String → Option α}
    (h : AgreeAt ⟨key, none, some p⟩ fs fs')
    (hp : ∀ r r', p.Alike r r' → r.json.operator?.bind ofSymbol? = r'.json.operator?.bind ofSymbol?)
    (g : α → Option β) :
    ((fs.json? key).bind fun j => j.operator?.bind fun sign => (ofSymbol? sign).bind g) =
      (fs'.json? key).bind fun j => j.operator?.bind fun sign => (ofSymbol? sign).bind g := by
  simp only [json?, Option.bind_map]
  refine h.lookup_bind_eq fun r r' hr => ?_
  have hbind := congrArg (Option.bind · g) (hp r r' hr)
  simpa only [Option.bind_assoc, Function.comp_apply] using hbind

theorem tag_eq {α : Type} (table : List (String × α)) {p : Position}
    (h : AgreeAt ⟨key, none, some p⟩ fs fs')
    (hp : ∀ r r', p.Alike r r' → r.json.tag? table = r'.json.tag? table) :
    ((fs.json? key).bind fun j => j.tag? table) = (fs'.json? key).bind fun j => j.tag? table := by
  simp only [json?, Option.bind_map]
  exact h.lookup_bind_eq hp

theorem listOrEmpty_eq {α : Type} {p : Position} {read : Reading → Option (List α)}
    (h : AgreeAt ⟨key, some (.arr []), some p⟩ fs fs')
    (hp : ∀ r r', p.Alike r r' → read r = read r') (hempty : read (.ofJson (.arr [])) = some []) :
    fs.listOrEmpty read key = fs'.listOrEmpty read key := by
  unfold listOrEmpty
  exact h.match_eq hempty hp

theorem optionalExpr?_eq (h : AgreeAt ⟨key, some .null, some .expression⟩ fs fs') :
    fs.optionalExpr? key = fs'.optionalExpr? key := by
  unfold optionalExpr?
  refine h.match_eq rfl fun r r' hr => ?_
  obtain ⟨hexpr, hnull⟩ : r.expr = r'.expr ∧ (r.json = .null ↔ r'.json = .null) := hr
  split
  next hjson => rw [hnull.1 hjson]
  next hjson =>
    split
    next hjson' => exact absurd (hnull.2 hjson') hjson
    next => rw [hexpr]

end Fields

theorem Expr.ofFields?_eq_of_agree {k : Kind} {fs fs' : Fields}
    (h : Fields.Agree k.declared fs fs') :
    ofFields? fs k = ofFields? fs' k := by
  cases k <;>
    simp only [Kind.declared, Fields.Agree, List.forall_mem_cons, List.not_mem_nil,
      false_implies, implies_true, and_true] at h <;>
    simp only [ofFields?, Option.bind_eq_bind]
  case literal => rw [Fields.json?_eq h]
  case name => rw [Fields.text?_eq h]
  case binary =>
    obtain ⟨hop, hl, hr⟩ := h
    rw [Fields.expr?_eq hl, Fields.expr?_eq hr]
    exact Fields.operator_bind_eq hop (fun _ _ hr => hr) _
  case unary =>
    obtain ⟨hop, he⟩ := h
    rw [Fields.expr?_eq he]
    exact Fields.operator_bind_eq hop (fun _ _ hr => hr) _
  case call =>
    obtain ⟨hfunc, hargs⟩ := h
    rw [Fields.text?_eq hfunc, Fields.listOrEmpty_eq hargs (fun _ _ hr => hr) rfl]
  case unsupported => rw [Fields.text?_eq h]

namespace Stmt

theorem ofFields?_eq_of_agree {k : Kind} {fs fs' : Fields} (h : Fields.Agree k.declared fs fs')
    (line : UInt32) : ofFields? fs line k = ofFields? fs' line k := by
  cases k <;>
    simp only [Kind.declared, Fields.Agree, List.forall_mem_cons, List.not_mem_nil,
      false_implies, implies_true, and_true] at h <;>
    simp only [ofFields?, Option.bind_eq_bind]
  case assign => rw [Fields.exprs?_eq h.1, Fields.expr?_eq h.2]
  case update =>
    obtain ⟨ht, hop, hv⟩ := h
    rw [Fields.expr?_eq ht, Fields.expr?_eq hv]
    exact Fields.operator_bind_eq hop (fun _ _ hr => hr) _
  case ifElse =>
    obtain ⟨ht, hb, ho⟩ := h
    rw [Fields.expr?_eq ht, Fields.stmts?_eq hb, Fields.listOrEmpty_eq ho (fun _ _ hr => hr) rfl]
  case whileLoop => rw [Fields.expr?_eq h.1, Fields.stmts?_eq h.2]
  case define =>
    obtain ⟨hn, hp, hb⟩ := h
    rw [Fields.text?_eq hn, Fields.listOrEmpty_eq hp (fun _ _ hr => hr) rfl, Fields.stmts?_eq hb]
  case ret => rw [Fields.optionalExpr?_eq h]
  case eval => rw [Fields.expr?_eq h]
  case unsupported => rw [Fields.text?_eq h]

theorem line?_eq_of_agree {fs fs' : Fields}
    (h : Fields.AgreeAt ⟨"line", some (.num (.int 0)), none⟩ fs fs') : line? fs = line? fs' := by
  have hline : ∀ gs : Fields,
      line? gs = ((gs.json? "line").or (some (.num (.int 0)))).bind Json.line? := by
    intro gs
    unfold line?
    cases gs.json? "line" with
    | none => rfl
    | some v => rfl
  rw [hline, hline, Fields.json?_or_eq h]

end Stmt

/-! ### Parts of a value -/

namespace Reading

theorem ofItems_eq_map (items : List Json) : ofItems items = items.map ofJson := by
  induction items with
  | nil => rfl
  | cons v r ih => rw [ofItems, ih, List.map_cons]

theorem lookup_ofMembers (members : List (String × Json)) (key : String) :
    (ofMembers members).lookup key = (members.lookup key).map ofJson := by
  induction members with
  | nil => rfl
  | cons m r ih =>
    obtain ⟨k, v⟩ := m
    rw [ofMembers, List.lookup_cons, List.lookup_cons, ih]
    cases key == k <;> rfl

theorem json?_ofMembers (members : List (String × Json)) (key : String) :
    (ofMembers members).json? key = members.lookup key := by
  simp [Fields.json?, lookup_ofMembers, json_ofJson, Function.comp_def]

end Reading

theorem Param.ofJson?_obj (members : List (String × Json)) :
    ofJson? (.obj members) = ((Reading.ofMembers members).text? "name").bind fun name =>
      (annotation? ((Reading.ofMembers members).json? "annotation")).bind fun annotation =>
        some ⟨name, annotation⟩ := by
  simp [ofJson?, Fields.text?, Reading.json?_ofMembers, Option.bind_assoc]

theorem Param.annotation?_eq_of_agree {fs fs' : Fields}
    (h : Fields.AgreeAt ⟨"annotation", some .null, none⟩ fs fs') :
    annotation? (fs.json? "annotation") = annotation? (fs'.json? "annotation") := by
  have hnull : ∀ o : Option Json, annotation? o = annotation? (o.or (some .null)) := by
    intro o
    cases o with
    | none => rfl
    | some v => rfl
  rw [hnull, Fields.json?_or_eq h, ← hnull]

/-! ### Objects -/

theorem Expr.ofObject?_eq_bind (fs : Fields) :
    ofObject? fs = ((fs.json? "kind").bind fun j => j.tag? kinds).bind (ofFields? fs) := by
  simp only [ofObject?, Option.bind_eq_bind, Option.bind_assoc]

theorem Stmt.ofObject?_eq_bind (fs : Fields) :
    ofObject? fs = (line? fs).bind fun line =>
      ((fs.json? "kind").bind fun j => j.tag? kinds).bind (ofFields? fs line) := by
  simp only [ofObject?, Option.bind_eq_bind, Option.bind_assoc]

namespace Position

theorem node?_statement {members : List (String × Json)} {node : List NodeField}
    (h : statement.node? members = some node) :
    ∃ k : Stmt.Kind, ((members.lookup "kind").bind fun j => j.tag? Stmt.kinds) = some k ∧
      node = k.node := by
  simp only [node?, Option.bind_eq_bind, Option.bind_eq_some_iff, Option.some.injEq] at h
  obtain ⟨v, hv, k, hk, rfl⟩ := h
  refine ⟨k, ?_, rfl⟩
  rw [hv]
  exact hk

theorem node?_expression {members : List (String × Json)} {node : List NodeField}
    (h : expression.node? members = some node) :
    ∃ k : Expr.Kind, ((members.lookup "kind").bind fun j => j.tag? Expr.kinds) = some k ∧
      node = k.node := by
  simp only [node?, Option.bind_eq_bind, Option.bind_eq_some_iff, Option.some.injEq] at h
  obtain ⟨v, hv, k, hk, rfl⟩ := h
  refine ⟨k, ?_, rfl⟩
  rw [hv]
  exact hk

/-- The objects are the same node, with its fields read alike. -/
theorem alike_of_agree {p : Position} {members members' : List (String × Json)}
    {node : List NodeField} (hnode : p.node? members = some node)
    (h : Fields.Agree node (Reading.ofMembers members) (Reading.ofMembers members')) :
    p.Alike (.ofJson (.obj members)) (.ofJson (.obj members')) := by
  cases p with
  | statement =>
    obtain ⟨k, hk, rfl⟩ := node?_statement hnode
    simp only [Fields.Agree, Stmt.Kind.node, List.forall_mem_cons] at h
    obtain ⟨hline, hkind, hdeclared⟩ := h
    have htag := Fields.tag_eq Stmt.kinds hkind fun _ _ hr => hr
    show Stmt.ofObject? _ = Stmt.ofObject? _
    rw [Stmt.ofObject?_eq_bind, Stmt.ofObject?_eq_bind, Stmt.line?_eq_of_agree hline, ← htag,
      Reading.json?_ofMembers, hk]
    simp only [Option.bind_some, Stmt.ofFields?_eq_of_agree hdeclared]
  | expression =>
    obtain ⟨k, hk, rfl⟩ := node?_expression hnode
    simp only [Fields.Agree, Expr.Kind.node, List.forall_mem_cons] at h
    obtain ⟨hkind, hdeclared⟩ := h
    have htag := Fields.tag_eq Expr.kinds hkind fun _ _ hr => hr
    refine ⟨?_, iff_of_false Json.noConfusion Json.noConfusion⟩
    show Expr.ofObject? _ = Expr.ofObject? _
    rw [Expr.ofObject?_eq_bind, Expr.ofObject?_eq_bind, ← htag, Reading.json?_ofMembers, hk]
    exact Expr.ofFields?_eq_of_agree hdeclared
  | parameter =>
    cases hnode
    simp only [Fields.Agree, Param.node, List.forall_mem_cons, List.not_mem_nil,
      false_implies, implies_true, and_true] at h
    obtain ⟨hname, hannotation⟩ := h
    show Param.ofJson? (.obj members) = Param.ofJson? (.obj members')
    rw [Param.ofJson?_obj, Param.ofJson?_obj, Fields.text?_eq hname,
      Param.annotation?_eq_of_agree hannotation]
  | _ => cases hnode

theorem keys_distinct {p : Position} {members : List (String × Json)} {node : List NodeField}
    (hnode : p.node? members = some node) : (node.map NodeField.key).Nodup := by
  cases p with
  | statement =>
    obtain ⟨k, -, rfl⟩ := node?_statement hnode
    cases k <;> decide
  | expression =>
    obtain ⟨k, -, rfl⟩ := node?_expression hnode
    cases k <;> decide
  | parameter =>
    cases hnode
    decide
  | _ => cases hnode

end Position

/-- With distinct keys, what is found under a key does not depend on the order. -/
theorem lookup_eq_of_perm {members members' : List (String × Json)} (h : members.Perm members')
    (hdistinct : (members.map Prod.fst).Nodup) (key : String) :
    members.lookup key = members'.lookup key := by
  induction h with
  | nil => rfl
  | cons m _ ih =>
    rw [List.lookup_cons, List.lookup_cons, ih (List.nodup_cons.1 hdistinct).2]
  | swap m m' r =>
    obtain ⟨k, u⟩ := m
    obtain ⟨k', u'⟩ := m'
    have hne : k' ≠ k := fun heq => (List.nodup_cons.1 hdistinct).1 (by simp [heq])
    by_cases hkey : key = k
    · have hkey' : (key == k') = false := beq_false_of_ne (hkey ▸ hne.symm)
      simp only [List.lookup_cons, hkey']
    · have hkey' : (key == k) = false := beq_false_of_ne hkey
      simp only [List.lookup_cons, hkey']
  | trans h _ ih ih' => exact (ih hdistinct).trans (ih' ((h.map Prod.fst).nodup_iff.1 hdistinct))

theorem lookup_insert_of_ne {a b : List (String × Json)} {key key' : String} (h : key' ≠ key)
    (v : Json) : (a ++ (key, v) :: b).lookup key' = (a ++ b).lookup key' := by
  have hne : (key' == key) = false := beq_false_of_ne h
  simp [List.lookup_append, List.lookup_cons, hne]

namespace Fields

variable {node : List NodeField} {a b members members' : List (String × Json)}
  {f : NodeField} {v w : Json}

theorem AgreeAt.of_members (h : members.lookup f.key = members'.lookup f.key) :
    AgreeAt f (Reading.ofMembers members) (Reading.ofMembers members') := by
  refine .of_lookup_eq ?_
  rw [Reading.lookup_ofMembers, Reading.lookup_ofMembers, h]

theorem agree_default (hkeys : (node.map NodeField.key).Nodup) (hf : f ∈ node)
    (hv : f.fallback = some v) (hmissing : (a ++ b).lookup f.key = none) :
    Agree node (Reading.ofMembers (a ++ b)) (Reading.ofMembers (a ++ (f.key, v) :: b)) := by
  intro g hg
  by_cases hkey : g.key = f.key
  · obtain rfl : g = f := List.inj_on_of_nodup_map hkeys hg hf hkey
    refine .of_reading_eq ?_
    obtain ⟨ha, -⟩ : a.lookup g.key = none ∧ b.lookup g.key = none := by
      simpa [List.lookup_append] using hmissing
    simp [NodeField.reading, Reading.lookup_ofMembers, hmissing, List.lookup_append, ha, hv]
  · exact .of_members (lookup_insert_of_ne hkey v).symm

theorem agree_member {q : Position} (hkeys : (node.map NodeField.key).Nodup) (hf : f ∈ node)
    (hq : f.part = some q) (h : q.Alike (.ofJson v) (.ofJson w)) :
    Agree node (Reading.ofMembers (a ++ (f.key, v) :: b))
      (Reading.ofMembers (a ++ (f.key, w) :: b)) := by
  intro g hg
  by_cases hkey : g.key = f.key
  · obtain rfl : g = f := List.inj_on_of_nodup_map hkeys hg hf hkey
    cases ha : a.lookup g.key with
    | some u => exact .of_members (by simp [List.lookup_append, ha])
    | none =>
      have hsame : g.Same (.ofJson v) (.ofJson w) := by simpa only [NodeField.Same, hq] using h
      simp only [AgreeAt, NodeField.reading, Reading.lookup_ofMembers, List.lookup_append, ha,
        List.lookup_cons_self, Option.none_or, Option.map_some, Option.some_or]
      exact .some hsame
  · exact .of_members ((lookup_insert_of_ne hkey v).trans (lookup_insert_of_ne hkey w).symm)

end Fields

/-! ### Arrays -/

theorem NodeField.lookup_zip {node : List NodeField} (hkeys : (node.map key).Nodup) {f : NodeField}
    {j : ℕ} (hf : node[j]? = some f) (rs : List Reading) :
    ((node.map key).zip rs).lookup f.key = rs[j]? := by
  induction node generalizing j rs with
  | nil => cases hf
  | cons g node ih =>
    obtain ⟨hfirst, hkeys⟩ := List.nodup_cons.1 hkeys
    cases rs with
    | nil => rfl
    | cons r rs =>
      rw [List.map_cons, List.zip_cons_cons, List.lookup_cons]
      cases j with
      | zero =>
        cases hf
        rw [beq_self_eq_true]
        rfl
      | succ j =>
        have hne : f.key ≠ g.key := fun heq =>
          hfirst (heq ▸ List.mem_map_of_mem (List.mem_of_getElem? hf))
        rw [beq_false_of_ne hne]
        exact ih hkeys hf rs

namespace Expr

theorem Kind.map_key_declared (k : Kind) : k.declared.map NodeField.key = k.fields := by
  cases k <;> rfl

theorem Kind.nodup_fields (k : Kind) : k.fields.Nodup := by
  cases k <;> decide

theorem ofArray?_cons {tag : Reading} {k : Kind} (hk : tag.json.tag? kinds = some k)
    {rest : List Reading} (hlength : rest.length ≤ k.fields.length) :
    ofArray? (tag :: rest) = ofFields? (k.fields.zip rest) k := by
  simp [ofArray?, hk, hlength]

theorem reading_zip {k : Kind} {f : NodeField} {j : ℕ} (hf : k.declared[j]? = some f)
    (rs : List Reading) :
    f.reading (k.fields.zip rs) = rs[j]?.or (f.fallback.map Reading.ofJson) := by
  have hkeys : (k.declared.map NodeField.key).Nodup := k.map_key_declared ▸ k.nodup_fields
  rw [NodeField.reading, ← k.map_key_declared, NodeField.lookup_zip hkeys hf rs]

/-- A value for a node, or values left out: the array against the object. -/
theorem agree_array {k : Kind} {members : List (String × Json)} {rest : List Json}
    (hitems : ∀ x ∈ k.declared.zip rest, members.lookup x.1.key = some x.2)
    (hrest : ∀ f ∈ k.declared.drop rest.length, ∃ v, f.fallback = some v ∧
      (members.lookup f.key = none ∨ members.lookup f.key = some v)) :
    Fields.Agree k.declared (Reading.ofMembers members) (k.fields.zip (Reading.ofItems rest)) := by
  intro f hf
  obtain ⟨j, hj⟩ := List.mem_iff_getElem?.1 hf
  refine .of_reading_eq ?_
  rw [reading_zip hj, Reading.ofItems_eq_map, List.getElem?_map, NodeField.reading,
    Reading.lookup_ofMembers]
  cases hv : rest[j]? with
  | some v =>
    have hmem : (f, v) ∈ k.declared.zip rest :=
      List.mem_iff_getElem?.2 ⟨j, List.getElem?_zip_eq_some.2 ⟨hj, hv⟩⟩
    rw [hitems (f, v) hmem]
  | none =>
    have hle : rest.length ≤ j := List.getElem?_eq_none_iff.1 hv
    have hmem : f ∈ k.declared.drop rest.length := by
      refine List.mem_iff_getElem?.2 ⟨j - rest.length, ?_⟩
      rwa [List.getElem?_drop, Nat.add_sub_cancel' hle]
    obtain ⟨v, hfallback, hmissing | hwritten⟩ := hrest f hmem
    · rw [hmissing]
    · rw [hwritten, hfallback]
      rfl

/-- A value in an array that is spelled in another way. -/
theorem agree_zip {k : Kind} {f : NodeField} {a b : List Reading} {r r' : Reading}
    (hf : k.declared[a.length]? = some f) (h : f.Same r r') :
    Fields.Agree k.declared (k.fields.zip (a ++ r :: b)) (k.fields.zip (a ++ r' :: b)) := by
  intro g hg
  obtain ⟨j, hj⟩ := List.mem_iff_getElem?.1 hg
  rw [Fields.AgreeAt, reading_zip hj, reading_zip hj]
  by_cases hplace : j = a.length
  · subst hplace
    obtain rfl : f = g := Option.some.inj (hf.symm.trans hj)
    simpa using Option.Rel.some h
  · have hsame : (a ++ r :: b)[j]? = (a ++ r' :: b)[j]? := by
      simp only [List.getElem?_append, List.getElem?_cons]
      split
      · rfl
      · rw [if_neg (by omega), if_neg (by omega)]
    rw [hsame]
    cases (a ++ r' :: b)[j]?.or (g.fallback.map Reading.ofJson) with
    | none => exact .none
    | some u => exact .some (.refl g u)

end Expr

namespace Position

variable {members : List (String × Json)} {items : List Json} {node : List NodeField}

theorem arrayNode?_expression {tag : Json} {rest : List Json}
    (h : expression.arrayNode? (tag :: rest) = some node) :
    ∃ k : Expr.Kind, tag.tag? Expr.kinds = some k ∧ node = k.node := by
  simp only [arrayNode?, Option.bind_eq_bind, Option.bind_eq_some_iff, Option.some.injEq] at h
  obtain ⟨k, hk, rfl⟩ := h
  exact ⟨k, hk, rfl⟩

theorem alike_array_expression (hnode : expression.node? members = some node)
    (harray : expression.arrayNode? items = some node) (hlength : items.length ≤ node.length)
    (hitems : ∀ x ∈ node.zip items, members.lookup x.1.key = some x.2)
    (hrest : ∀ f ∈ node.drop items.length, ∃ v, f.fallback = some v ∧
      (members.lookup f.key = none ∨ members.lookup f.key = some v)) :
    expression.Alike (.ofJson (.obj members)) (.ofJson (.arr items)) := by
  obtain ⟨k, hk, rfl⟩ := node?_expression hnode
  cases items with
  | nil => cases harray
  | cons tag rest =>
    have hkind : members.lookup "kind" = some tag :=
      hitems (⟨"kind", none, some .expressionKind⟩, tag) List.mem_cons_self
    have htag : (Reading.ofJson tag).json.tag? Expr.kinds = some k := by
      rw [hkind] at hk
      rwa [Reading.json_ofJson]
    have hfits : (Reading.ofItems rest).length ≤ k.fields.length := by
      simpa [Expr.Kind.node, ← k.map_key_declared, Reading.ofItems_eq_map] using hlength
    have hagree := Expr.agree_array (k := k)
      (fun x hx => hitems x (List.mem_cons_of_mem _ hx)) hrest
    refine ⟨?_, iff_of_false Json.noConfusion Json.noConfusion⟩
    show Expr.ofObject? _ = Expr.ofArray? (.ofJson tag :: Reading.ofItems rest)
    rw [Expr.ofObject?_eq_bind, Reading.json?_ofMembers, hk, Expr.ofArray?_cons htag hfits]
    exact Expr.ofFields?_eq_of_agree hagree

theorem alike_array_parameter (hlength : items.length ≤ Param.node.length)
    (hitems : ∀ x ∈ Param.node.zip items, members.lookup x.1.key = some x.2)
    (hrest : ∀ f ∈ Param.node.drop items.length, ∃ v, f.fallback = some v ∧
      (members.lookup f.key = none ∨ members.lookup f.key = some v)) :
    parameter.Alike (.ofJson (.obj members)) (.ofJson (.arr items)) := by
  show Param.ofJson? (.obj members) = Param.ofJson? (.arr items)
  match items with
  | [] =>
    obtain ⟨v, hv, -⟩ := hrest ⟨"name", none, none⟩ List.mem_cons_self
    cases hv
  | [name] =>
    have hname : members.lookup "name" = some name :=
      hitems (⟨"name", none, none⟩, name) List.mem_cons_self
    obtain ⟨v, ⟨⟩, hannotation⟩ := hrest ⟨"annotation", some .null, none⟩ List.mem_cons_self
    have hnone : Param.annotation? (members.lookup "annotation") = some none := by
      obtain hmissing | hwritten := hannotation
      · rw [hmissing]
        rfl
      · rw [hwritten]
        rfl
    simp only [Param.ofJson?, hname, hnone, Option.bind_eq_bind, Option.bind_some,
      Option.map_eq_bind]
    rfl
  | [name, annotation] =>
    have hname : members.lookup "name" = some name :=
      hitems (⟨"name", none, none⟩, name) List.mem_cons_self
    have hannotation : members.lookup "annotation" = some annotation :=
      hitems (⟨"annotation", some .null, none⟩, annotation)
        (List.mem_cons_of_mem _ List.mem_cons_self)
    simp only [Param.ofJson?, hname, hannotation]
    rfl
  | _ :: _ :: _ :: _ => simp [Param.node] at hlength

theorem alike_element {p q : Position} {a b : List Json} {f : NodeField} {v w : Json}
    (hnode : p.arrayNode? (a ++ v :: b) = some node) (hf : node[a.length]? = some f)
    (hq : f.part = some q) (h : q.Alike (.ofJson v) (.ofJson w)) :
    p.Alike (.ofJson (.arr (a ++ v :: b))) (.ofJson (.arr (a ++ w :: b))) := by
  cases p with
  | expression =>
    refine ⟨?_, iff_of_false Json.noConfusion Json.noConfusion⟩
    cases a with
    | nil =>
      obtain ⟨k, -, rfl⟩ := arrayNode?_expression hnode
      cases hf
      cases hq
      have htag : (Reading.ofJson v).json.tag? Expr.kinds =
          (Reading.ofJson w).json.tag? Expr.kinds := h
      show Expr.ofArray? (.ofJson v :: Reading.ofItems b) =
        Expr.ofArray? (.ofJson w :: Reading.ofItems b)
      simp only [Expr.ofArray?, htag]
    | cons tag a =>
      obtain ⟨k, hk, rfl⟩ := arrayNode?_expression hnode
      have hsame : f.Same (.ofJson v) (.ofJson w) := by simpa only [NodeField.Same, hq] using h
      have hplace : k.declared[(a.map Reading.ofJson).length]? = some f := by
        simpa [Expr.Kind.node] using hf
      have hagree := Expr.agree_zip (b := b.map Reading.ofJson) hplace hsame
      show Expr.ofArray? (.ofJson tag :: Reading.ofItems (a ++ v :: b)) =
        Expr.ofArray? (.ofJson tag :: Reading.ofItems (a ++ w :: b))
      simp [Expr.ofArray?, Reading.json_ofJson, hk, Reading.ofItems_eq_map,
        Expr.ofFields?_eq_of_agree hagree]
  | parameter =>
    cases hnode
    have hpart : ∀ g ∈ Param.node, g.part = none := by simp [Param.node]
    rw [hpart f (List.mem_of_getElem? hf)] at hq
    cases hq
  | _ => cases hnode

theorem alike_item {p q : Position} {a b : List Json} {v w : Json} (hq : p.element? = some q)
    (h : q.Alike (.ofJson v) (.ofJson w)) :
    p.Alike (.ofJson (.arr (a ++ v :: b))) (.ofJson (.arr (a ++ w :: b))) := by
  cases p with
  | statements =>
    cases hq
    have hstmt : (Reading.ofJson v).stmt = (Reading.ofJson w).stmt := h
    show (Reading.ofItems _).mapM (·.stmt) = (Reading.ofItems _).mapM (·.stmt)
    simp [Reading.ofItems_eq_map, hstmt]
  | expressions =>
    cases hq
    obtain ⟨hexpr, -⟩ := h
    show (Reading.ofItems _).mapM (·.expr) = (Reading.ofItems _).mapM (·.expr)
    simp [Reading.ofItems_eq_map, hexpr]
  | parameters =>
    cases hq
    have hparam : Param.ofJson? v = Param.ofJson? w := by
      simpa only [Alike, Reading.json_ofJson] using h
    show (a ++ v :: b).mapM Param.ofJson? = (a ++ w :: b).mapM Param.ofJson?
    simp [hparam]
  | _ => cases hq

end Position

/-! ### All spellings -/

theorem Json.tag?_str_eq {α : Type} (table : List (String × α))
    (htable : ∀ x ∈ table, table.lookup x.1 = some x.2) {i : ℕ} {name : String} {k : α}
    (h : table[i]? = some (name, k)) : tag? table (.str name) = tag? table (.num (.int i)) := by
  have hlookup : table.lookup name = some k := htable (name, k) (List.mem_of_getElem? h)
  simp [tag?, hlookup, h]

/-- Each change keeps what is read at its place. -/
theorem Respelled.alike {p : Position} {v w : Json} (h : Respelled p v w) :
    p.Alike (.ofJson v) (.ofJson w) := by
  induction h with
  | statementKind h => exact Json.tag?_str_eq Stmt.kinds (by decide) h
  | expressionKind h => exact Json.tag?_str_eq Expr.kinds (by decide) h
  | equal => rfl
  | unequal => rfl
  | @operator p hp sign =>
    cases p with
    | binaryOp => rfl
    | unaryOp => rfl
    | _ => cases hp
  | permuted hnode hdistinct h =>
    exact Position.alike_of_agree hnode fun f _ => .of_members (lookup_eq_of_perm h hdistinct f.key)
  | extra hnode hkey v =>
    exact Position.alike_of_agree hnode fun f hf =>
      .of_members (lookup_insert_of_ne (hkey f hf) v).symm
  | default hnode hf hv hmissing =>
    exact Position.alike_of_agree hnode
      (Fields.agree_default (Position.keys_distinct hnode) hf hv hmissing)
  | @array p _ _ _ hnode harray hlength hitems hrest =>
    cases p with
    | expression => exact Position.alike_array_expression hnode harray hlength hitems hrest
    | parameter =>
      cases hnode
      exact Position.alike_array_parameter hlength hitems hrest
    | _ => cases harray
  | member hnode hf hq _ ih =>
    exact Position.alike_of_agree hnode
      (Fields.agree_member (Position.keys_distinct hnode) hf hq ih)
  | element hnode hf hq _ ih => exact Position.alike_element hnode hf hq ih
  | item hq _ ih => exact Position.alike_item hq ih
  | refl p v => exact .refl p _
  | symm _ ih => exact ih.symm
  | trans _ _ ih ih' => exact ih.trans ih'

/-- All spellings of a statement are read alike. In particular, all spellings of the text form of a
statement are read as that statement. -/
theorem Stmt.spellings_load_alike {v w : Json} (h : Respelled .statement v w) :
    ofJson? v = ofJson? w ∧
      ∀ s : Stmt, (∀ x ∈ s.reals, x.isFinite = true) → v = s.toJson → ofJson? w = some s := by
  have heq : ofJson? v = ofJson? w := h.alike
  refine ⟨heq, ?_⟩
  rintro s hreals rfl
  exact heq.symm.trans (stmt_ofJson_toJson s hreals)

namespace Respelled

def loop : Stmt := .whileLoop 0 (.binary .ne (.name "i") (.call "f" [])) [.pass 4]

def testArray : Json :=
  .arr [.num (.int 2), .obj [("<>", .null)], .arr [.str "name", .str "i"],
    .arr [.str "call", .str "f"]]

def loopOther : Json :=
  .obj [("test", testArray), ("kind", .num (.int 3)), ("note", .bool true),
    ("body", .arr [.obj [("line", .num (.int 4)), ("kind", .num (.int 7))]])]

theorem loop_test_respelled :
    Respelled .expression (Expr.binary .ne (.name "i") (.call "f" [])).toJson testArray := by
  have hname : Respelled .expression (Expr.name "i").toJson (.arr [.str "name", .str "i"]) :=
    .array rfl rfl (by decide) (by simp [Expr.Kind.node, Expr.Kind.declared, List.lookup_cons])
      (by simp [Expr.Kind.node, Expr.Kind.declared])
  have hcall : Respelled .expression (Expr.call "f" []).toJson (.arr [.str "call", .str "f"]) :=
    .array rfl rfl (by decide) (by simp [Expr.Kind.node, Expr.Kind.declared, List.lookup_cons])
      (by simp [Expr.Kind.node, Expr.Kind.declared, List.lookup_cons, Expr.toJsons])
  have hop : Respelled .binaryOp (.str "!=") (.obj [("<>", .null)]) :=
    unequal.trans (.operator rfl "<>")
  have hkind : Respelled .expressionKind (.str "bin_op") (.num (.int 2)) :=
    .expressionKind (i := 2) rfl
  have harray : Respelled .expression (Expr.binary .ne (.name "i") (.call "f" [])).toJson
      (.arr [.str "bin_op", .str "!=", (Expr.name "i").toJson, (Expr.call "f" []).toJson]) :=
    .array rfl rfl (by decide)
      (by simp [Expr.Kind.node, Expr.Kind.declared, List.lookup_cons, BinaryOp.symbol])
      (by simp [Expr.Kind.node, Expr.Kind.declared])
  refine harray.trans ?_
  refine (element (a := []) rfl rfl rfl hkind).trans ?_
  refine (element (a := [.num (.int 2)]) rfl rfl rfl hop).trans ?_
  refine (element (a := [.num (.int 2), .obj [("<>", .null)]]) rfl rfl rfl hname).trans ?_
  exact element (a := [.num (.int 2), .obj [("<>", .null)], .arr [.str "name", .str "i"]])
    rfl rfl rfl hcall

theorem loop_respelled : Respelled .statement loop.toJson loopOther := by
  let body : Json := .arr [.obj [("line", .num (.int 4)), ("kind", .num (.int 7))]]
  have hpass : Respelled .statement (Stmt.pass 4).toJson
      (.obj [("line", .num (.int 4)), ("kind", .num (.int 7))]) :=
    member (a := [("line", .num (.int 4))]) (f := ⟨"kind", none, some .statementKind⟩) rfl
      (by simp [Stmt.Kind.node]) rfl (.statementKind (i := 7) rfl)
  have hbody : Respelled .statements (.arr [(Stmt.pass 4).toJson]) body := item (a := []) rfl hpass
  have hkind : Respelled .statementKind (.str "while") (.num (.int 3)) :=
    .statementKind (i := 3) rfl
  have hline : Respelled .statement
      (.obj [("line", .num (.int 0)), ("kind", .num (.int 3)), ("test", testArray), ("body", body)])
      (.obj [("kind", .num (.int 3)), ("test", testArray), ("body", body)]) :=
    (default (a := []) (f := ⟨"line", some (.num (.int 0)), none⟩) rfl
      (by simp [Stmt.Kind.node]) rfl rfl).symm
  have hnote : Respelled .statement
      (.obj [("test", testArray), ("kind", .num (.int 3)), ("body", body)]) loopOther :=
    extra (a := [("test", testArray), ("kind", .num (.int 3))]) rfl
      (by simp [Stmt.Kind.node, Stmt.Kind.declared])
      (.bool true)
  refine (member (a := [("line", .num (.int 0))]) (f := ⟨"kind", none, some .statementKind⟩) rfl
    (by simp [Stmt.Kind.node]) rfl hkind).trans ?_
  refine (member (a := [("line", .num (.int 0)), ("kind", .num (.int 3))])
    (f := ⟨"test", none, some .expression⟩) rfl
    (by simp [Stmt.Kind.node, Stmt.Kind.declared]) rfl loop_test_respelled).trans ?_
  refine (member (a := [("line", .num (.int 0)), ("kind", .num (.int 3)), ("test", testArray)])
    (f := ⟨"body", none, some .statements⟩) rfl
    (by simp [Stmt.Kind.node, Stmt.Kind.declared]) rfl hbody).trans ?_
  exact (hline.trans (permuted rfl (by decide) (.swap _ _ _))).trans hnote

end Respelled

theorem Stmt.loop_spellings_load : Respelled .statement Respelled.loop.toJson Respelled.loopOther ∧
    ofJson? Respelled.loopOther = some Respelled.loop :=
  ⟨Respelled.loop_respelled, (spellings_load_alike Respelled.loop_respelled).2 _ (by decide) rfl⟩

end TreeAsm
