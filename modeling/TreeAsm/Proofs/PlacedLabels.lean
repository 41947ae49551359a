import TreeAsm.Proofs.References

/-! Code while it is written, call after call. A call places a label or emits an instruction; a
label waits for the instruction that is emitted next. Where several wait, instructions that do
nothing are put in to carry them. The lines of the code keep apart what was emitted and what was put
in, so that an emitted instruction that does nothing is not taken for a carrier. -/
namespace TreeAsm

/-- A line of code: an instruction that was emitted, with the label that was put on it, or one that
was put in to carry a label. -/
inductive Line where
  | emitted (label : Option Label) (i : Instruction)
  | inserted (label : Label)

namespace Line

/-- What is put in does nothing. -/
def instruction : Line → Instruction
  | .emitted none i => i
  | .emitted (some l) i => { i with label := some l }
  | .inserted l => ⟨some l, .nop, none, none⟩

def label? : Line → Option Label
  | .emitted label _ => label
  | .inserted l => some l

def emitted? : Line → Option Instruction
  | .emitted _ i => some i
  | .inserted _ => none

/-- The labels that were put on these lines, in order. -/
def labels (lines : List Line) : List Label := lines.filterMap label?

/-- What these lines leave when labels and carriers are erased. -/
def erase (lines : List Line) : List Instruction := lines.filterMap emitted?

@[simp] theorem labels_append (f g : List Line) : labels (f ++ g) = labels f ++ labels g :=
  List.filterMap_append

@[simp] theorem erase_append (f g : List Line) : erase (f ++ g) = erase f ++ erase g :=
  List.filterMap_append

theorem labels_inserted (ls : List Label) : labels (ls.map .inserted) = ls := by
  induction ls with
  | nil => rfl
  | cons l rest ih => exact congrArg (l :: ·) ih

theorem erase_inserted (ls : List Label) : erase (ls.map .inserted) = [] := by
  induction ls with
  | nil => rfl
  | cons l rest ih => exact ih

theorem map_instruction_inserted (ls : List Label) :
    (ls.map inserted).map instruction = ls.map .carrier := List.map_map

/-- From the first of these lines on, there are only carriers before the instruction. -/
def LeadTo (lines : List Line) (i : Instruction) : Prop :=
  ∃ (waiting : List Label) (label : Option Label) (rest : List Line),
    lines = waiting.map .inserted ++ .emitted label i :: rest

/-- The line of a label that waits among others leads where they all lead. -/
theorem exists_leadTo {before waiting : List Label} {label : Option Label} {l : Label}
    (h : before ++ [l] <+: waiting ++ label.toList) (i : Instruction) (rest : List Line) :
    ∃ x g, waiting.map inserted ++ .emitted label i :: rest = before.map .inserted ++ x :: g ∧
      x.label? = some l ∧ LeadTo (x :: g) i := by
  induction before generalizing waiting with
  | nil =>
    cases waiting with
    | nil =>
      obtain rfl : label = some l := by
        cases label <;> simp_all
      exact ⟨.emitted (some l) i, rest, rfl, rfl, [], some l, rest, rfl⟩
    | cons m others =>
      obtain ⟨rfl, -⟩ := List.cons_prefix_cons.1 h
      exact ⟨.inserted l, others.map .inserted ++ .emitted label i :: rest, rfl, rfl, l :: others,
        label, rest, rfl⟩
  | cons b before ih =>
    cases waiting with
    | nil =>
      have hle := h.length_le
      cases label <;> simp at hle
    | cons m others =>
      obtain ⟨rfl, hprefix⟩ := List.cons_prefix_cons.1 h
      obtain ⟨x, g, hlines, hx, hlead⟩ := ih hprefix
      exact ⟨x, g, congrArg (inserted b :: ·) hlines, hx, hlead⟩

/-- Labels the first line, or puts in a carrier if it has a label. -/
def enter (l : Label) : List Line → List Line
  | .emitted none i :: rest => .emitted (some l) i :: rest
  | lines => .inserted l :: lines

@[simp] theorem labels_enter (l : Label) (lines : List Line) :
    labels (enter l lines) = l :: labels lines := by
  unfold enter
  split <;> rfl

@[simp] theorem erase_enter (l : Label) (lines : List Line) :
    erase (enter l lines) = erase lines := by
  unfold enter
  split <;> rfl

theorem map_instruction_enter (l : Label) {lines : List Line}
    (h : ∀ i ∈ erase lines, i.label = none) :
    (enter l lines).map instruction = Code.withLabel l (lines.map instruction) := by
  cases lines with
  | nil => rfl
  | cons x rest =>
    cases x with
    | inserted m => rfl
    | emitted label i =>
      cases label with
      | some m => rfl
      | none =>
        have hi : i.label.isNone = true := by
          rw [h i List.mem_cons_self]
          rfl
        show i.labelled l :: rest.map instruction = Code.withLabel l (i :: rest.map instruction)
        rw [Code.withLabel, if_pos hi]

theorem exists_enter_eq_cons (l : Label) (lines : List Line) :
    ∃ first rest, enter l lines = first :: rest ∧ first.label? = some l := by
  unfold enter
  split
  · exact ⟨_, _, rfl, rfl⟩
  · exact ⟨_, _, rfl, rfl⟩

/-- A labelled line and what follows it stay as they are. -/
theorem enter_append {l m : Label} {x : Line} (h : x.label? = some m) (f g : List Line) :
    enter l (f ++ x :: g) = enter l f ++ x :: g := by
  cases f with
  | nil =>
    cases x with
    | inserted m => rfl
    | emitted label i =>
      obtain rfl : label = some m := h
      rfl
  | cons y rest =>
    rw [List.cons_append]
    unfold enter
    split <;> simp_all

theorem LeadTo.enter {lines : List Line} {i : Instruction} (h : LeadTo lines i) (l : Label) :
    LeadTo (enter l lines) i := by
  obtain ⟨waiting, label, rest, rfl⟩ := h
  cases waiting with
  | nil =>
    cases label with
    | none => exact ⟨[], some l, rest, rfl⟩
    | some m => exact ⟨[l], some m, rest, rfl⟩
  | cons m others => exact ⟨l :: m :: others, label, rest, rfl⟩

end Line

namespace Code

/-- Code that is being written: the lines so far, and the labels that wait for the next
instruction. -/
structure Buffer where
  lines : List Line
  pending : List Label

namespace Buffer

def empty : Buffer := ⟨[], []⟩

/-- The instruction on the last of the labels that wait, after carriers for the others. -/
def under (pending : List Label) (i : Instruction) : List Line :=
  match pending.getLast? with
  | none => [.emitted none i]
  | some l => pending.dropLast.map .inserted ++ [.emitted (some l) i]

def put (b : Buffer) : Item → Buffer
  | .mark l => { b with pending := b.pending ++ [l] }
  | .op i => ⟨b.lines ++ under b.pending i, []⟩

def putAll (b : Buffer) (calls : List Item) : Buffer := calls.foldl put b

/-- The lines when nothing more is written: labels that still wait get carriers. -/
def close (b : Buffer) : List Line := b.lines ++ b.pending.map .inserted

def code (b : Buffer) : List Instruction := b.lines.map Line.instruction

@[simp] theorem putAll_nil (b : Buffer) : b.putAll [] = b := rfl

@[simp] theorem putAll_cons (b : Buffer) (x : Item) (rest : List Item) :
    b.putAll (x :: rest) = (b.put x).putAll rest := rfl

theorem putAll_append (b : Buffer) (i j : List Item) : b.putAll (i ++ j) = (b.putAll i).putAll j :=
  List.foldl_append

theorem map_instruction_under (pending : List Label) (i : Instruction) :
    (under pending i).map Line.instruction = attach pending i := by
  unfold under attach
  cases pending.getLast? with
  | none => rfl
  | some l =>
    rw [List.map_append, Line.map_instruction_inserted]
    rfl

/-- Written call after call and closed, the code is the settled one. -/
theorem map_instruction_close_putAll (b : Buffer) (calls : List Item) :
    (b.putAll calls).close.map Line.instruction = b.code ++ settleFrom b.pending calls := by
  induction calls generalizing b with
  | nil =>
    rw [putAll_nil, close, List.map_append, Line.map_instruction_inserted]
    rfl
  | cons x rest ih =>
    rw [putAll_cons, ih]
    cases x with
    | mark l => rfl
    | op i => simp [put, code, settleFrom, map_instruction_under]

theorem map_instruction_close (calls : List Item) :
    (empty.putAll calls).close.map Line.instruction = settle calls :=
  map_instruction_close_putAll empty calls

theorem lines_prefix_put (b : Buffer) (x : Item) : b.lines <+: (b.put x).lines := by
  cases x with
  | mark l => exact List.prefix_rfl
  | op i => exact List.prefix_append _ _

/-- Lines that are written never change. -/
theorem lines_prefix_putAll (b : Buffer) (calls : List Item) :
    b.lines <+: (b.putAll calls).lines := by
  induction calls generalizing b with
  | nil => exact List.prefix_rfl
  | cons x rest ih => exact (b.lines_prefix_put x).trans (ih (b.put x))

/-- The buffer holds exactly what these calls placed and emitted. -/
structure Records (b : Buffer) (calls : List Item) : Prop where
  labels : Line.labels b.lines ++ b.pending = marks calls
  erase : Line.erase b.lines = ops calls

theorem labels_under (pending : List Label) (i : Instruction) :
    Line.labels (under pending i) = pending := by
  unfold under
  split
  next h => exact (List.getLast?_eq_none_iff.1 h).symm
  next l h =>
    rw [Line.labels_append, Line.labels_inserted]
    exact List.dropLast_append_getLast? l h

theorem erase_under (pending : List Label) (i : Instruction) :
    Line.erase (under pending i) = [i] := by
  unfold under
  split
  · rfl
  · rw [Line.erase_append, Line.erase_inserted]
    rfl

theorem Records.put {b : Buffer} {calls : List Item} (h : b.Records calls) (x : Item) :
    (b.put x).Records (calls ++ [x]) := by
  cases x with
  | mark l =>
    refine ⟨?_, ?_⟩
    · rw [marks_append, ← h.labels, List.append_assoc]
      rfl
    · rw [ops_append, ← h.erase]
      exact (List.append_nil _).symm
  | op i =>
    refine ⟨?_, ?_⟩
    · simp [Buffer.put, labels_under, ← h.labels]
    · simp [Buffer.put, erase_under, ← h.erase]

theorem Records.putAll {b : Buffer} {done : List Item} (h : b.Records done) (calls : List Item) :
    (b.putAll calls).Records (done ++ calls) := by
  induction calls generalizing b done with
  | nil => simpa using h
  | cons x rest ih => simpa using ih (h.put x)

theorem records_putAll (calls : List Item) : (empty.putAll calls).Records calls := by
  have hempty : empty.Records [] := ⟨rfl, rfl⟩
  exact hempty.putAll calls

/-- The labels that wait go before what is emitted next, or before the instruction behind the
code. -/
theorem exists_next (b : Buffer) (calls : List Item) (last : Instruction) :
    ∃ (waiting : List Label) (label : Option Label) (rest : List Line),
      (b.putAll calls).close ++ [.emitted none last] =
        b.lines ++ (waiting.map .inserted ++ .emitted label ((ops calls).headD last) :: rest) ∧
      b.pending <+: waiting ++ label.toList := by
  induction calls generalizing b with
  | nil => exact ⟨b.pending, none, [], by simp [close], by simp⟩
  | cons x rest ih =>
    cases x with
    | mark l =>
      obtain ⟨waiting, label, tail, hlines, hpending⟩ := ih (b.put (.mark l))
      exact ⟨waiting, label, tail, hlines, (List.prefix_append _ _).trans hpending⟩
    | op i =>
      obtain ⟨tail, htail⟩ : (b.put (.op i)).lines <+:
          ((b.put (.op i)).putAll rest).close ++ [.emitted none last] := by
        refine ((b.put (.op i)).lines_prefix_putAll rest).trans ?_
        rw [close, List.append_assoc]
        exact List.prefix_append _ _
      rw [putAll_cons, ← htail]
      unfold put under
      cases hlast : b.pending.getLast? with
      | none => exact ⟨[], none, tail, by simp, by simp [List.getLast?_eq_none_iff.1 hlast]⟩
      | some l =>
        have hpending : b.pending.dropLast ++ [l] = b.pending :=
          List.dropLast_append_getLast? l hlast
        exact ⟨b.pending.dropLast, some l, tail, by simp, by simp [hpending]⟩

/-- A label that is placed now stands right behind the code as it would be closed here, and leads to
what is emitted next. -/
theorem exists_line_of_mark (b : Buffer) (l : Label) (calls : List Item) (last : Instruction) :
    ∃ x g, ((b.put (.mark l)).putAll calls).close ++ [.emitted none last] = b.close ++ x :: g ∧
      x.label? = some l ∧ Line.LeadTo (x :: g) ((ops calls).headD last) := by
  obtain ⟨waiting, label, rest, hlines, hpending⟩ := (b.put (.mark l)).exists_next calls last
  obtain ⟨x, g, hwaiting, hx, hlead⟩ := Line.exists_leadTo hpending ((ops calls).headD last) rest
  refine ⟨x, g, ?_, hx, hlead⟩
  rw [hlines, hwaiting, close, List.append_assoc]
  rfl

end Buffer

/-- The lines of the top-level block around the code of these calls. -/
def entryLines (calls : List Item) : List Line :=
  Line.enter (.plain Label.entry)
    ((Buffer.empty.putAll calls).close ++ [.emitted none (.bare .stop)])

theorem erase_close_putAll (calls : List Item) :
    Line.erase (Buffer.empty.putAll calls).close = ops calls := by
  rw [Buffer.close, Line.erase_append, Line.erase_inserted, List.append_nil]
  exact (Buffer.records_putAll calls).erase

theorem labels_close_putAll (calls : List Item) :
    Line.labels (Buffer.empty.putAll calls).close = marks calls := by
  rw [Buffer.close, Line.labels_append, Line.labels_inserted]
  exact (Buffer.records_putAll calls).labels

theorem erase_entryLines (calls : List Item) :
    Line.erase (entryLines calls) = ops calls ++ [.bare .stop] := by
  rw [entryLines, Line.erase_enter, Line.erase_append, erase_close_putAll]
  rfl

theorem map_instruction_entryLines {calls : List Item} (h : ∀ i, .op i ∈ calls → i.label = none) :
    (entryLines calls).map Line.instruction = (topLevelBlock (settle calls)).code := by
  have hnone : ∀ i ∈ ops calls ++ [.bare .stop], i.label = none := by
    intro i hi
    rcases List.mem_append.1 hi with hi | hi
    · obtain ⟨x, hx, hop⟩ := List.mem_filterMap.1 hi
      cases x with
      | mark l => simp [Item.op?] at hop
      | op j => exact Option.some.inj hop ▸ h j hx
    · rw [List.mem_singleton.1 hi]
      rfl
  rw [← erase_entryLines, entryLines, Line.erase_enter] at hnone
  rw [entryLines, Line.map_instruction_enter _ hnone, List.map_append, Buffer.map_instruction_close]
  rfl

/-- No label that is placed is lost, doubled or moved. The labels of the top-level block are that of
the entry and those that were placed, in order. Its lines can be told apart into those that were
emitted and those that were put in to carry labels, such that erasing labels and carriers leaves the
emitted instructions in order and the stop. From the entry only carriers lead to the first of them,
and from each placed label to the one that was emitted next after it was placed. -/
theorem placed_labels_kept {calls : List Item} (h : ∀ i, .op i ∈ calls → i.label = none) :
    labels (topLevelBlock (settle calls)).code = .plain Label.entry :: marks calls ∧
    ∃ lines : List Line, (topLevelBlock (settle calls)).code = lines.map Line.instruction ∧
      Line.erase lines = ops calls ++ [.bare .stop] ∧
      (∃ x g, lines = x :: g ∧ x.label? = some (.plain Label.entry) ∧
        Line.LeadTo (x :: g) ((ops calls).headD (.bare .stop))) ∧
      ∀ before l after, calls = before ++ .mark l :: after →
        ∃ f x g, lines = f ++ x :: g ∧ x.label? = some l ∧
          Line.labels f = .plain Label.entry :: marks before ∧ Line.erase f = ops before ∧
          Line.LeadTo (x :: g) ((ops after).headD (.bare .stop)) := by
  refine ⟨?_, entryLines calls, (map_instruction_entryLines h).symm, erase_entryLines calls, ?_, ?_⟩
  · rw [topLevelBlock, labels_withLabel, labels_append, labels_settle h, labels_cons]
    exact congrArg _ (List.append_nil _)
  · obtain ⟨waiting, label, rest, hlines, -⟩ := Buffer.empty.exists_next calls (.bare .stop)
    have hlead : Line.LeadTo (entryLines calls) ((ops calls).headD (.bare .stop)) :=
      Line.LeadTo.enter ⟨waiting, label, rest, hlines⟩ _
    obtain ⟨x, g, hcons, hx⟩ := Line.exists_enter_eq_cons (.plain Label.entry)
      ((Buffer.empty.putAll calls).close ++ [.emitted none (.bare .stop)])
    rw [entryLines, hcons] at hlead ⊢
    exact ⟨x, g, rfl, hx, hlead⟩
  · rintro before l after rfl
    obtain ⟨x, g, hlines, hx, hlead⟩ :=
      (Buffer.empty.putAll before).exists_line_of_mark l after (.bare .stop)
    refine ⟨Line.enter (.plain Label.entry) (Buffer.empty.putAll before).close, x, g, ?_, hx,
      ?_, ?_, hlead⟩
    · rw [entryLines, Buffer.putAll_append, Buffer.putAll_cons, hlines, Line.enter_append hx]
    · rw [Line.labels_enter, labels_close_putAll]
    · rw [Line.erase_enter, erase_close_putAll]

/-- Several labels before an instruction that does nothing, one before a push, and several at the
end. -/
def clustered : List Item :=
  [.mark (.generated "endif" 1), .mark (.generated "endif" 0), .op (.bare .nop),
    .mark (.generated "while" 2), .op (.on .push (.imm 1)), .mark (.generated "endwhile" 3),
    .mark (.generated "endif" 4)]

theorem clustered_labels_kept :
    (∀ i, .op i ∈ clustered → i.label = none) ∧
    (topLevelBlock (settle clustered)).code =
      [⟨some (.plain "tl"), .nop, none, none⟩, ⟨some (.generated "endif" 1), .nop, none, none⟩,
        ⟨some (.generated "endif" 0), .nop, none, none⟩,
        ⟨some (.generated "while" 2), .push, some (.imm 1), none⟩,
        ⟨some (.generated "endwhile" 3), .nop, none, none⟩,
        ⟨some (.generated "endif" 4), .nop, none, none⟩, ⟨none, .stop, none, none⟩] ∧
    ∃ lines : List Line, (topLevelBlock (settle clustered)).code = lines.map Line.instruction ∧
      Line.erase lines = [.bare .nop, .on .push (.imm 1), .bare .stop] ∧
      ∃ f x g, lines = f ++ x :: g ∧ x.label? = some (.generated "endif" 1) ∧
        Line.labels f = [.plain "tl"] ∧ Line.erase f = [] ∧ Line.LeadTo (x :: g) (.bare .nop) := by
  have hnone : ∀ i, .op i ∈ clustered → i.label = none := by
    intro i hi
    obtain rfl | rfl : i = .bare .nop ∨ i = .on .push (.imm 1) := by simpa [clustered] using hi
    · rfl
    · rfl
  obtain ⟨-, lines, hcode, herase, -, hplaced⟩ := placed_labels_kept hnone
  exact ⟨hnone, by decide, lines, hcode, herase,
    hplaced [] (.generated "endif" 1) clustered.tail rfl⟩

end Code
end TreeAsm
