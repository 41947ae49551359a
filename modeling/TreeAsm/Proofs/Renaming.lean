import TreeAsm.Proofs.LabelUniqueness
import TreeAsm.Proofs.WellFormed

/-! Scripts under other names and on other lines. The walks over the tree see the same things under
the new names, and nothing but the names that stand in a script decides what it becomes. -/
namespace TreeAsm

namespace Expr

mutual

/-- The expression with each variable and each called routine under another name. -/
def rename (r : String → String) : Expr → Expr
  | .literal v => .literal v
  | .name n => .name (r n)
  | .binary op left right => .binary op (rename r left) (rename r right)
  | .unary op e => .unary op (rename r e)
  | .call func args => .call (r func) (renameAll r args)
  | .unsupported construct => .unsupported construct

def renameAll (r : String → String) : List Expr → List Expr
  | [] => []
  | e :: rest => rename r e :: renameAll r rest

end

variable {r : String → String}

theorem length_renameAll (es : List Expr) : (renameAll r es).length = es.length := by
  induction es with
  | nil => rfl
  | cons e rest ih => rw [renameAll, List.length_cons, List.length_cons, ih]

theorem name?_rename (e : Expr) : (e.rename r).name? = e.name?.map r := by
  cases e <;> rfl

theorem infer_rename (e : Expr) : VarKind.infer (e.rename r) = VarKind.infer e := by
  cases e with
  | unary op e => cases op <;> cases e <;> rfl
  | _ => rfl

mutual

theorem reads_rename (e : Expr) : (e.rename r).reads = e.reads.map r := by
  match e with
  | .literal _ | .name _ | .unsupported _ => rfl
  | .binary op left right =>
    simp only [rename, reads, reads_rename left, reads_rename right, List.map_append]
  | .unary op e => simp only [rename, reads, reads_rename e]
  | .call func args => simp only [rename, reads, readsAll_rename args]

theorem readsAll_rename (es : List Expr) : readsAll (renameAll r es) = (readsAll es).map r := by
  match es with
  | [] => rfl
  | e :: rest =>
    simp only [renameAll, readsAll, reads_rename e, readsAll_rename rest, List.map_append]

end

end Expr

def Param.rename (r : String → String) (p : Param) : Param := { p with name := r p.name }

namespace Stmt

mutual

/-- The statement under other names and on other lines, with everything inside it. -/
def recast (r : String → String) (m : UInt32 → UInt32) : Stmt → Stmt
  | .assign line targets value => .assign (m line) (targets.map (·.rename r)) (value.rename r)
  | .update line target op value => .update (m line) (target.rename r) op (value.rename r)
  | .ifElse line test body orelse =>
    .ifElse (m line) (test.rename r) (recastAll r m body) (recastAll r m orelse)
  | .whileLoop line test body => .whileLoop (m line) (test.rename r) (recastAll r m body)
  | .define line name params body =>
    .define (m line) (r name) (params.map (·.rename r)) (recastAll r m body)
  | .ret line value => .ret (m line) (value.map (·.rename r))
  | .eval line value => .eval (m line) (value.rename r)
  | .pass line => .pass (m line)
  | .unsupported line construct => .unsupported (m line) construct

def recastAll (r : String → String) (m : UInt32 → UInt32) : List Stmt → List Stmt
  | [] => []
  | x :: rest => recast r m x :: recastAll r m rest

end

end Stmt

def Routine.recast (r : String → String) (m : UInt32 → UInt32) (q : Routine) : Routine :=
  ⟨m q.line, r q.name, q.params.map (·.rename r), Stmt.recastAll r m q.body⟩

def Script.recast (r : String → String) (m : UInt32 → UInt32) (s : Script) : Script :=
  ⟨Stmt.recastAll r m s.body⟩

namespace Stmt

variable {r : String → String} {m : UInt32 → UInt32}

theorem recastAll_eq (xs : List Stmt) : recastAll r m xs = xs.map (recast r m) := by
  induction xs with
  | nil => rfl
  | cons x rest ih => rw [recastAll, ih, List.map_cons]

theorem routine?_recast (x : Stmt) :
    (x.recast r m).routine? = x.routine?.map (Routine.recast r m) := by
  cases x <;> rfl

mutual

theorem binds_recast (x : Stmt) : binds (x.recast r m) = (binds x).map fun b => (r b.1, b.2) := by
  match x with
  | .assign line targets value =>
    have hnames : (targets.map (Expr.rename r)).filterMap Expr.name? =
        (targets.filterMap Expr.name?).map r := by
      rw [List.filterMap_map, List.map_filterMap]
      exact List.filterMap_congr fun t _ => t.name?_rename
    simp only [recast, binds, hnames, Expr.infer_rename, List.map_map]
    rfl
  | .ifElse line test body orelse =>
    simp only [recast, binds, bindsAll_recast body, bindsAll_recast orelse, List.map_append]
  | .whileLoop line test body => simp only [recast, binds, bindsAll_recast body]
  | .update .. | .define .. | .ret .. | .eval .. | .pass _ | .unsupported .. => rfl

theorem bindsAll_recast (xs : List Stmt) :
    bindsAll (recastAll r m xs) = (bindsAll xs).map fun b => (r b.1, b.2) := by
  match xs with
  | [] => rfl
  | x :: rest =>
    simp only [recastAll, bindsAll, binds_recast x, bindsAll_recast rest, List.map_append]

end

/-- The names that an expression reads, on the line of its statement. -/
theorem map_reads_rename (e : Expr) (line : UInt32) :
    (e.rename r).reads.map (·, m line) = (e.reads.map (·, line)).map fun n => (r n.1, m n.2) := by
  rw [e.reads_rename, List.map_map, List.map_map]
  rfl

mutual

theorem reads_recast (x : Stmt) : reads (x.recast r m) = (reads x).map fun n => (r n.1, m n.2) := by
  match x with
  | .assign line targets value => exact map_reads_rename value line
  | .update line target op value =>
    simp only [recast, reads, List.map_append, map_reads_rename]
  | .ifElse line test body orelse =>
    simp only [recast, reads, readsAll_recast body, readsAll_recast orelse, map_reads_rename,
      List.map_append]
  | .whileLoop line test body =>
    simp only [recast, reads, readsAll_recast body, map_reads_rename, List.map_append]
  | .ret line (some value) => exact map_reads_rename value line
  | .eval line value => exact map_reads_rename value line
  | .ret _ none | .define .. | .pass _ | .unsupported .. => rfl

theorem readsAll_recast (xs : List Stmt) :
    readsAll (recastAll r m xs) = (readsAll xs).map fun n => (r n.1, m n.2) := by
  match xs with
  | [] => rfl
  | x :: rest =>
    simp only [recastAll, readsAll, reads_recast x, readsAll_recast rest, List.map_append]

end

mutual

theorem defines_recast (x : Stmt) :
    defines (x.recast r m) = (defines x).map fun d => (r d.1, m d.2) := by
  match x with
  | .ifElse line test body orelse =>
    simp only [recast, defines, definesAll_recast body, definesAll_recast orelse, List.map_append]
  | .whileLoop line test body => simp only [recast, defines, definesAll_recast body]
  | .define .. | .assign .. | .update .. | .ret .. | .eval .. | .pass _ | .unsupported .. => rfl

theorem definesAll_recast (xs : List Stmt) :
    definesAll (recastAll r m xs) = (definesAll xs).map fun d => (r d.1, m d.2) := by
  match xs with
  | [] => rfl
  | x :: rest =>
    simp only [recastAll, definesAll, defines_recast x, definesAll_recast rest, List.map_append]

end

end Stmt

namespace Script

variable {r : String → String} {m : UInt32 → UInt32}

theorem routines_recast (s : Script) :
    (s.recast r m).routines = s.routines.map (Routine.recast r m) := by
  rw [routines, routines, recast, Stmt.recastAll_eq, List.filterMap_map, List.map_filterMap]
  exact List.filterMap_congr fun x _ => x.routine?_recast

theorem topLevel_recast (s : Script) : (s.recast r m).topLevel = Stmt.recastAll r m s.topLevel := by
  rw [topLevel, topLevel, recast, Stmt.recastAll_eq, Stmt.recastAll_eq, List.filter_map]
  congr 1
  refine List.filter_congr fun x _ => ?_
  rw [Function.comp_apply, Stmt.routine?_recast, Option.isNone_map]

end Script

/-! ### Names of a script -/

namespace Expr

mutual

/-- The variables and the called routines of an expression. -/
def names : Expr → List String
  | .literal _ => []
  | .name n => [n]
  | .binary _ left right => names left ++ names right
  | .unary _ e => names e
  | .call func args => func :: namesAll args
  | .unsupported _ => []

def namesAll : List Expr → List String
  | [] => []
  | e :: rest => names e ++ namesAll rest

end

variable {r r' : String → String}

mutual

theorem rename_congr (e : Expr) (h : ∀ n ∈ e.names, r n = r' n) : e.rename r = e.rename r' := by
  match e with
  | .literal _ | .unsupported _ => rfl
  | .name n => exact congrArg name (h n (List.mem_singleton_self n))
  | .binary op left right =>
    have h := List.forall_mem_append.1 h
    rw [rename, rename, rename_congr left h.1, rename_congr right h.2]
  | .unary op e => rw [rename, rename, rename_congr e h]
  | .call func args =>
    have h := List.forall_mem_cons.1 h
    rw [rename, rename, h.1, renameAll_congr args h.2]

theorem renameAll_congr (es : List Expr) (h : ∀ n ∈ namesAll es, r n = r' n) :
    renameAll r es = renameAll r' es := by
  match es with
  | [] => rfl
  | e :: rest =>
    have h := List.forall_mem_append.1 h
    rw [renameAll, renameAll, rename_congr e h.1, renameAll_congr rest h.2]

end

end Expr

namespace Stmt

mutual

/-- Every name in the statement and in what stands inside it, routine bodies included. -/
def names : Stmt → List String
  | .assign _ targets value => targets.flatMap Expr.names ++ value.names
  | .update _ target _ value => target.names ++ value.names
  | .ifElse _ test body orelse => test.names ++ namesAll body ++ namesAll orelse
  | .whileLoop _ test body => test.names ++ namesAll body
  | .define _ name params body => name :: params.map Param.name ++ namesAll body
  | .ret _ value => value.toList.flatMap Expr.names
  | .eval _ value => value.names
  | .pass _ | .unsupported .. => []

def namesAll : List Stmt → List String
  | [] => []
  | x :: rest => names x ++ namesAll rest

end

variable {r r' : String → String} {m : UInt32 → UInt32}

mutual

theorem recast_congr (x : Stmt) (h : ∀ n ∈ x.names, r n = r' n) : x.recast r m = x.recast r' m := by
  match x with
  | .assign line targets value =>
    have h := List.forall_mem_append.1 h
    have htargets : targets.map (Expr.rename r) = targets.map (Expr.rename r') :=
      List.map_congr_left fun t ht => t.rename_congr fun n hn =>
        h.1 n (List.mem_flatMap.2 ⟨t, ht, hn⟩)
    rw [recast, recast, htargets, value.rename_congr h.2]
  | .update line target op value =>
    have h := List.forall_mem_append.1 h
    rw [recast, recast, target.rename_congr h.1, value.rename_congr h.2]
  | .ifElse line test body orelse =>
    obtain ⟨h, horelse⟩ := List.forall_mem_append.1 h
    obtain ⟨htest, hbody⟩ := List.forall_mem_append.1 h
    rw [recast, recast, test.rename_congr htest, recastAll_congr body hbody,
      recastAll_congr orelse horelse]
  | .whileLoop line test body =>
    have h := List.forall_mem_append.1 h
    rw [recast, recast, test.rename_congr h.1, recastAll_congr body h.2]
  | .define line name params body =>
    obtain ⟨h, hbody⟩ := List.forall_mem_append.1 h
    obtain ⟨hname, hparams⟩ := List.forall_mem_cons.1 h
    have hps : params.map (Param.rename r) = params.map (Param.rename r') :=
      List.map_congr_left fun p hp => by
        rw [Param.rename, hparams p.name (List.mem_map_of_mem hp), Param.rename]
    rw [recast, recast, hname, hps, recastAll_congr body hbody]
  | .ret line value =>
    have hvalue : value.map (Expr.rename r) = value.map (Expr.rename r') :=
      Option.map_congr fun e he => e.rename_congr fun n hn =>
        h n (List.mem_flatMap.2 ⟨e, by simpa using he, hn⟩)
    rw [recast, recast, hvalue]
  | .eval line value => rw [recast, recast, value.rename_congr h]
  | .pass line | .unsupported line construct => rfl

theorem recastAll_congr (xs : List Stmt) (h : ∀ n ∈ namesAll xs, r n = r' n) :
    recastAll r m xs = recastAll r' m xs := by
  match xs with
  | [] => rfl
  | x :: rest =>
    have h := List.forall_mem_append.1 h
    rw [recastAll, recastAll, recast_congr x h.1, recastAll_congr rest h.2]

end

mutual

theorem mem_names_of_binds (x : Stmt) : ∀ b ∈ binds x, b.1 ∈ x.names := by
  intro b hb
  match x with
  | .assign line targets value =>
    rw [binds, List.mem_map] at hb
    obtain ⟨n, hn, rfl⟩ := hb
    have ht := mem_filterMap_name?.1 hn
    exact List.mem_append_left _ (List.mem_flatMap.2 ⟨_, ht, List.mem_singleton_self n⟩)
  | .ifElse line test body orelse =>
    rw [binds, List.mem_append] at hb
    rw [names, List.mem_append, List.mem_append]
    rcases hb with hb | hb
    · exact .inl (.inr (mem_namesAll_of_binds body b hb))
    · exact .inr (mem_namesAll_of_binds orelse b hb)
  | .whileLoop line test body => exact List.mem_append_right _ (mem_namesAll_of_binds body b hb)
  | .update .. | .define .. | .ret .. | .eval .. | .pass _ | .unsupported .. => simp [binds] at hb

theorem mem_namesAll_of_binds (xs : List Stmt) : ∀ b ∈ bindsAll xs, b.1 ∈ namesAll xs := by
  intro b hb
  match xs with
  | [] => simp [bindsAll] at hb
  | x :: rest =>
    rw [bindsAll, List.mem_append] at hb
    rw [namesAll, List.mem_append]
    exact hb.imp (mem_names_of_binds x b) (mem_namesAll_of_binds rest b)

end

theorem mem_namesAll {n : String} {xs : List Stmt} : n ∈ namesAll xs ↔ ∃ x ∈ xs, n ∈ x.names := by
  induction xs with
  | nil => simp [namesAll]
  | cons x rest ih => simp [namesAll, ih]

end Stmt

namespace Script

/-- All names in a script: variables, parameters, routines, and what is called. -/
def names (s : Script) : List String := Stmt.namesAll s.body

/-- The script under other names. -/
def rename (r : String → String) (s : Script) : Script := s.recast r id

theorem named_of_names {s : Script} (h : ∀ n ∈ s.names, isIdentifier n = true) : s.Named := by
  have hroutine : ∀ q ∈ s.routines, ∀ n,
      n ∈ q.name :: q.params.map Param.name ++ Stmt.namesAll q.body → isIdentifier n = true := by
    intro q hq n hn
    obtain ⟨x, hx, hdefine⟩ := List.mem_filterMap.1 hq
    refine h n (Stmt.mem_namesAll.2 ⟨x, hx, ?_⟩)
    cases x with
    | define line name params body =>
      obtain rfl := Option.some.inj hdefine
      exact hn
    | _ => simp [Stmt.routine?] at hdefine
  refine ⟨fun b hb => h _ (Stmt.mem_namesAll_of_binds _ b hb), fun q hq => ?_, fun q hq p hp =>
    ?_, fun q hq b hb => ?_⟩
  · exact hroutine q hq _ (by simp)
  · refine hroutine q hq _ (List.mem_append_left _ (List.mem_cons_of_mem _ ?_))
    exact List.mem_map_of_mem hp
  · exact hroutine q hq _ (List.mem_append_right _ (Stmt.mem_namesAll_of_binds _ b hb))

end Script

end TreeAsm
