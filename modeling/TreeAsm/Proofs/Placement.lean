import TreeAsm.Proofs.ByteStrings
import TreeAsm.Proofs.Machine
import TreeAsm.Proofs.Linkage

/-! Where code lies in a listing. Labels resolve to the positions of the instructions that carry
them, and every piece of a body lies between two positions, with its labels at the places where they
were marked. -/
namespace TreeAsm

namespace Code

variable {code : List Instruction}

theorem position?_eq_some (hn : ((labels code).map Label.text).Nodup) {a : Nat} {i : Instruction}
    {l : Label} (h : code[a]? = some i) (hl : i.label = some l) :
    position? code l.text = some a := by
  obtain ⟨ha, hi⟩ := List.getElem?_eq_some_iff.1 h
  refine List.findIdx?_eq_some_iff_getElem.2 ⟨ha, by simp [hi, hl], fun k hk => ?_⟩
  intro hm
  rw [labels, List.map_filterMap, List.Nodup, List.pairwise_filterMap] at hn
  have hp := List.pairwise_iff_getElem.1 hn k a (by omega) ha hk
  simp only [Option.any_eq_true, decide_eq_true_eq] at hm
  obtain ⟨m, hm, ht⟩ := hm
  exact hp l.text (by simp [hm, ht]) l.text (by simp [hi, hl]) rfl

theorem labelled?_eq_some (hn : ((labels code).map Label.text).Nodup) {i : Instruction} {l : Label}
    (h : i ∈ code) (hl : i.label = some l) : labelled? code l.text = some i := by
  obtain ⟨a, ha⟩ := List.mem_iff_getElem?.1 h
  rw [labelled?, position?_eq_some hn ha hl]
  exact ha

/-- The instruction at a position, apart from label and comment. -/
def Does (code : List Instruction) (a : Nat) (i : Instruction) : Prop :=
  ∃ j, code[a]? = some j ∧ j.opcode = i.opcode ∧ j.operand = i.operand

/-- The instructions lie one after another from a position on, and their labels resolve to them. -/
def Placed (code : List Instruction) : Nat → List Instruction → Prop
  | _, [] => True
  | a, i :: r =>
    (Does code a i ∧ ∀ l, i.label = some l → position? code l.text = some a) ∧ Placed code (a + 1) r

theorem placed_append {a : Nat} {c d : List Instruction} :
    Placed code a (c ++ d) ↔ Placed code a c ∧ Placed code (a + c.length) d := by
  induction c generalizing a with
  | nil => simp [Placed]
  | cons i r ih =>
    have hl : a + (i :: r).length = a + 1 + r.length := by rw [List.length_cons]; omega
    simp only [List.cons_append, Placed, ih, hl, and_assoc]

theorem placed_of_eq_append (hn : ((labels code).map Label.text).Nodup)
    {before c after : List Instruction} (h : code = before ++ (c ++ after)) :
    Placed code before.length c := by
  induction c generalizing before with
  | nil => trivial
  | cons i r ih =>
    have hi : code[before.length]? = some i := by simp [h]
    have hr : Placed code (before ++ [i]).length r := ih (by simp [h])
    rw [List.length_append] at hr
    exact ⟨⟨⟨i, hi, rfl, rfl⟩, fun l hl => position?_eq_some hn hi hl⟩, hr⟩

/-- The items of a body lie from one position to another: a mark is where its label resolves to, on
an instruction of its own or on the next one. -/
inductive Laid (code : List Instruction) : Nat → List Item → Nat → Prop where
  | nil (a : Nat) : Laid code a [] a
  | carried {a z : Nat} {l : Label} {r : List Item} (hl : position? code l.text = some a)
      (hi : Does code a (.bare .nop)) (hr : Laid code (a + 1) r z) : Laid code a (.mark l :: r) z
  | marked {a z : Nat} {l : Label} {r : List Item} (hl : position? code l.text = some a)
      (hr : Laid code a r z) : Laid code a (.mark l :: r) z
  | op {a z : Nat} {i : Instruction} {r : List Item} (hi : Does code a i)
      (hr : Laid code (a + 1) r z) :
      Laid code a (.op i :: r) z

theorem Laid.split {a z : Nat} {i j : List Item} (h : Laid code a (i ++ j) z) :
    ∃ y, Laid code a i y ∧ Laid code y j z := by
  induction i generalizing a with
  | nil => exact ⟨a, .nil a, h⟩
  | cons x r ih =>
    cases h with
    | carried hl hi hr =>
      obtain ⟨y, hy, hz⟩ := ih hr
      exact ⟨y, .carried hl hi hy, hz⟩
    | marked hl hr =>
      obtain ⟨y, hy, hz⟩ := ih hr
      exact ⟨y, .marked hl hy, hz⟩
    | op hi hr =>
      obtain ⟨y, hy, hz⟩ := ih hr
      exact ⟨y, .op hi hy, hz⟩

theorem Laid.split_op {a z : Nat} {i : Instruction} {r : List Item}
    (h : Laid code a (.op i :: r) z) :
    Does code a i ∧ Laid code (a + 1) r z := by
  cases h with
  | op hi hr => exact ⟨hi, hr⟩

theorem Laid.split_nil {a z : Nat} (h : Laid code a [] z) : z = a := by
  cases h
  rfl

/-- Between the positions there is at most an instruction that does nothing. -/
def Skips (code : List Instruction) (a z : Nat) : Prop :=
  z = a ∨ Does code a (.bare .nop) ∧ z = a + 1

theorem Laid.split_mark {a z : Nat} {l : Label} {r : List Item} (h : Laid code a (.mark l :: r) z) :
    position? code l.text = some a ∧ ∃ y, Skips code a y ∧ Laid code y r z := by
  cases h with
  | carried hl hi hr => exact ⟨hl, a + 1, .inr ⟨hi, rfl⟩, hr⟩
  | marked hl hr => exact ⟨hl, a, .inl rfl, hr⟩

theorem Laid.split_last {a z : Nat} {l : Label} (h : Laid code a [.mark l] z) :
    position? code l.text = some a ∧ Skips code a z := by
  obtain ⟨hl, y, hs, hz⟩ := h.split_mark
  exact ⟨hl, hz.split_nil ▸ hs⟩

theorem Laid.split_if {a z n : Nat} {t c : List Item} (h : Laid code a (Lowering.ifItems t c n) z) :
    ∃ y₁ y₂, Laid code a t y₁ ∧ Does code y₁ (.on .brf (.target (.generated "endif" n))) ∧
      Laid code (y₁ + 1) c y₂ ∧ position? code (Label.generated "endif" n).text = some y₂ ∧
      Skips code y₂ z := by
  obtain ⟨y₁, ht, h⟩ := h.split
  obtain ⟨hbranch, h⟩ := h.split_op
  obtain ⟨y₂, hc, h⟩ := h.split
  exact ⟨y₁, y₂, ht, hbranch, hc, h.split_last⟩

theorem Laid.split_ifElse {a z n : Nat} {t c d : List Item}
    (h : Laid code a (Lowering.ifElseItems t c d n) z) :
    ∃ y₁ y₂ y₃ y₄, Laid code a t y₁ ∧ Does code y₁ (.on .brf (.target (.generated "else" n))) ∧
      Laid code (y₁ + 1) c y₂ ∧ Does code y₂ (.on .br (.target (.generated "endif" (n + 1)))) ∧
      position? code (Label.generated "else" n).text = some (y₂ + 1) ∧ Skips code (y₂ + 1) y₃ ∧
      Laid code y₃ d y₄ ∧ position? code (Label.generated "endif" (n + 1)).text = some y₄ ∧
      Skips code y₄ z := by
  obtain ⟨y₁, ht, h⟩ := h.split
  obtain ⟨hbranch, h⟩ := h.split_op
  obtain ⟨y₂, hc, h⟩ := h.split
  obtain ⟨hjump, h⟩ := h.split_op
  obtain ⟨helse, y₃, hskip, h⟩ := h.split_mark
  obtain ⟨y₄, hd, h⟩ := h.split
  exact ⟨y₁, y₂, y₃, y₄, ht, hbranch, hc, hjump, helse, hskip, hd, h.split_last⟩

theorem Laid.split_while {a z n : Nat} {t c : List Item}
    (h : Laid code a (Lowering.whileItems t c n) z) :
    ∃ y₀ y₁ y₂, position? code (Label.generated "while" n).text = some a ∧ Skips code a y₀ ∧
      Laid code y₀ t y₁ ∧
      Does code y₁ (.on .brf (.target (.generated "endwhile" (n + 1)))) ∧ Laid code (y₁ + 1) c y₂ ∧
      Does code y₂ (.on .br (.target (.generated "while" n))) ∧
      position? code (Label.generated "endwhile" (n + 1)).text = some (y₂ + 1) ∧
      Skips code (y₂ + 1) z := by
  obtain ⟨hhead, y₀, hskip, h⟩ := h.split_mark
  obtain ⟨y₁, ht, h⟩ := h.split
  obtain ⟨hbranch, h⟩ := h.split_op
  obtain ⟨y₂, hc, h⟩ := h.split
  obtain ⟨hjump, h⟩ := h.split_op
  exact ⟨y₀, y₁, y₂, hhead, hskip, ht, hbranch, hc, hjump, h.split_last⟩

theorem laid_carriers {a z : Nat} {ls : List Label} {r : List Item}
    (h : Placed code a (ls.map .carrier)) (hr : Laid code (a + ls.length) r z) :
    Laid code a (ls.map .mark ++ r) z := by
  induction ls generalizing a with
  | nil => exact hr
  | cons l ls ih =>
    obtain ⟨⟨hd, hl⟩, hp⟩ := h
    have hlen : a + (l :: ls).length = a + 1 + ls.length := by rw [List.length_cons]; omega
    exact .carried (hl l rfl) hd (ih hp (hlen ▸ hr))

/-- Settled code lies as its items say. -/
theorem laid_of_placed {a : Nat} {pending : List Label} {items : List Item}
    (h : Placed code a (settleFrom pending items)) :
    Laid code a (pending.map .mark ++ items) (a + (settleFrom pending items).length) := by
  induction items generalizing pending a with
  | nil =>
    have hlen : (settleFrom pending []).length = pending.length := by simp [settleFrom]
    rw [hlen]
    exact laid_carriers h (.nil _)
  | cons x r ih =>
    cases x with
    | mark l =>
      have hr := ih h
      rw [List.map_append, List.append_assoc] at hr
      exact hr
    | op i =>
      obtain ⟨hp, hr⟩ := placed_append.1 h
      have hr := ih hr
      rw [settleFrom, List.length_append, ← Nat.add_assoc]
      cases pending using List.reverseRecOn with
      | nil => exact .op hp.1.1 hr
      | append_singleton ls l =>
        have ha : attach (ls ++ [l]) i = ls.map .carrier ++ [i.labelled l] := by simp [attach]
        rw [ha] at hp hr ⊢
        obtain ⟨hc, ⟨hd, hl⟩, -⟩ := placed_append.1 hp
        have hlen : a + (ls.map Instruction.carrier ++ [i.labelled l]).length =
            a + ls.length + 1 := by
          simp only [List.length_append, List.length_map, List.length_cons, List.length_nil]
          omega
        rw [List.length_map] at hd hl
        rw [hlen] at hr ⊢
        rw [List.map_append, List.append_assoc]
        exact laid_carriers hc (.marked (hl l rfl) (.op hd hr))

/-- A label in front of code is on its first instruction, or on one that does nothing. -/
theorem placed_of_withLabel {a : Nat} {l : Label} {c : List Instruction}
    (h : Placed code a (withLabel l c)) :
    position? code l.text = some a ∧ ∃ a', Skips code a a' ∧
      Placed code a' c ∧ a' + c.length = a + (withLabel l c).length := by
  cases c with
  | nil =>
    obtain ⟨⟨hd, hl⟩, -⟩ := h
    exact ⟨hl l rfl, a + 1, .inr ⟨hd, rfl⟩, trivial, rfl⟩
  | cons i r =>
    rw [withLabel] at h ⊢
    split at h
    next hi =>
      obtain ⟨⟨hd, hl⟩, hr⟩ := h
      refine ⟨hl l rfl, a, .inl rfl, ⟨⟨hd, fun m hm => ?_⟩, hr⟩, by simp [hi]⟩
      simp [hm] at hi
    next hi =>
      obtain ⟨⟨hd, hl⟩, hr⟩ := h
      refine ⟨hl l rfl, a + 1, .inr ⟨hd, rfl⟩, hr, ?_⟩
      rw [if_neg hi]
      simp only [List.length_cons]
      omega

theorem argumentCount_append_ret {c after : List Instruction} (h : ∀ i ∈ c, i.opcode ≠ .ret) :
    argumentCount (c ++ .bare .ret :: after) = c.countP Instruction.fetchesArgument := by
  have hc : ∀ i ∈ c, decide (i.opcode ≠ .ret) = true := fun i hi => decide_eq_true (h i hi)
  have ht : (c ++ Instruction.bare .ret :: after).takeWhile (·.opcode ≠ .ret) = c := by
    rw [List.takeWhile_append_of_pos hc]
    simp [Instruction.bare]
  rw [argumentCount, ht]

end Code

open Code

namespace Frame

/-- The code that takes the arguments into the slots of the parameters. -/
def bindings (f : Frame) : List Instruction := f.params.zipIdx.flatMap fun x => f.bindParam x.1 x.2

/-- Where the block of a routine lies in a listing: its entry, its body, its end, and the offsets of
its slots. -/
structure Site (f : Frame) (items : List Item) (code : List Instruction)
    (entry stop : Nat) : Prop where
  starts : position? code f.routine = some entry
  enter : Does code entry (.on .enter (.imm f.size))
  args : argumentCount (code.drop (entry + 1)) = f.arity
  bindings : Placed code (entry + 1) f.bindings
  body : Laid code (entry + 1 + f.bindings.length) items stop
  ends : position? code f.exitLabel.text = some stop
  leave : Does code stop (.bare .leave)
  ret : Does code (stop + 1) (.bare .ret)
  equates : ∀ n k, f.slot? n = some k → equate? code (Label.slot f.routine n).text = some k

variable {f : Frame} {globals : Scope} {r : Routine}

theorem bindParam_eq {n : String} {i k : Nat} (h : f.slot? n = some i) :
    f.bindParam n k =
      [.on .push (.arg k),
        (Instruction.on .pop (.mem (.frame (.slot f.routine n) i))).commented ("bind " ++ n)] := by
  simp [bindParam, resolve?, h]

/-- One argument is fetched for each parameter. -/
theorem countP_bindings (h : f.locals = globals.localsOf r) :
    f.bindings.countP Instruction.fetchesArgument = f.arity := by
  have hone : ∀ x ∈ f.params.zipIdx,
      (f.bindParam x.1 x.2).countP Instruction.fetchesArgument = 1 := by
    intro x hx
    rw [bindParam_eq (slot?_param h (List.mem_zipIdx_iff_getElem?.1 hx))]
    rfl
  rw [bindings, List.countP_flatMap, Function.comp_def, List.map_congr_left hone]
  simp [arity]

theorem opcode_ne_ret_of_mem_bindings {i : Instruction} (h : i ∈ f.bindings) : i.opcode ≠ .ret := by
  rcases mem_prologue (List.mem_cons_of_mem _ h) with ⟨ho, -⟩ | ⟨k, ho, -⟩ | ⟨n, k, -, ho, -⟩ <;>
    simp [ho]

section Site

variable {code before after : List Instruction} {items : List Item}

theorem equate?_slot (hn : ((labels code).map Label.text).Nodup)
    (h : code = before ++ ((f.assemble items).code ++ after)) {n : String} {k : Nat}
    (hk : f.slot? n = some k) : equate? code (Label.slot f.routine n).text = some k := by
  obtain ⟨j, hj, hl, ho, hv⟩ := exists_equate hk
  have hm : j ∈ code := by
    rw [h]
    simp [assemble, block, hj]
  rw [equate?, labelled?_eq_some hn hm hl]
  simp only [Option.bind_some, ho, hv]
  rw [toList_toString_nat, digitsValue_natText]

theorem argumentCount_block (h : code = before ++ ((f.assemble items).code ++ after))
    (hf : f.locals = globals.localsOf r)
    (hb : ∀ i ∈ settle items, i.opcode ≠ .ret ∧ i.fetchesArgument = false) :
    argumentCount (code.drop (before.length + f.reservation.length + 1)) = f.arity := by
  have hc : code = (before ++ f.reservation ++ [f.prologue.head (by simp [prologue])]) ++
      (f.bindings ++ settle items ++ [(Instruction.bare .leave).labelled f.exitLabel] ++
        .bare .ret :: after) := by
    simp [h, assemble, block, prologue, bindings, epilogue]
  have hlen : (before ++ f.reservation ++ [f.prologue.head (by simp [prologue])]).length =
      before.length + f.reservation.length + 1 := by
    simp only [List.length_append, List.length_cons, List.length_nil]
  rw [hc, ← hlen, List.drop_left, argumentCount_append_ret]
  · have hzero : (settle items).countP Instruction.fetchesArgument = 0 :=
      List.countP_eq_zero.2 fun i hi => by simp [(hb i hi).2]
    rw [List.countP_append, List.countP_append, countP_bindings hf, hzero]
    rfl
  · intro i hi
    simp only [List.mem_append, List.mem_singleton] at hi
    rcases hi with (hi | hi) | rfl
    · exact opcode_ne_ret_of_mem_bindings hi
    · exact (hb i hi).1
    · simp [Instruction.labelled, Instruction.bare]

/-- The block of a routine has its site wherever it lies. -/
theorem exists_site (hn : ((labels code).map Label.text).Nodup)
    (h : code = before ++ ((f.assemble items).code ++ after)) (hf : f.locals = globals.localsOf r)
    (hb : ∀ i ∈ settle items, i.opcode ≠ .ret ∧ i.fetchesArgument = false) :
    ∃ entry stop, f.Site items code entry stop := by
  have hp : Placed code before.length (f.reservation ++ f.prologue ++ settle items ++ f.epilogue) :=
    placed_of_eq_append hn h
  obtain ⟨hp, hepilogue⟩ := placed_append.1 hp
  obtain ⟨hp, hbody⟩ := placed_append.1 hp
  obtain ⟨-, ⟨henter, hentry⟩, hbindings⟩ := placed_append.1 hp
  obtain ⟨⟨hleave, hexit⟩, ⟨hret, -⟩, -⟩ := hepilogue
  have hstart : before.length + (f.reservation ++ f.prologue).length =
      before.length + f.reservation.length + 1 + f.bindings.length := by
    simp only [List.length_append, prologue, List.length_cons, bindings]
    omega
  have hstop : before.length + (f.reservation ++ f.prologue ++ settle items).length =
      before.length + f.reservation.length + 1 + f.bindings.length + (settle items).length := by
    rw [List.length_append, ← Nat.add_assoc, hstart]
  rw [hstart] at hbody
  rw [hstop] at hleave hexit hret
  exact ⟨_, _, hentry _ rfl, henter, argumentCount_block h hf hb, hbindings,
    laid_of_placed hbody, hexit _ rfl, hleave, hret, fun n k hk => equate?_slot hn h hk⟩

end Site
end Frame

namespace Lowering

/-- Bodies do not return by themselves, hold no text and leave the arguments to the code in
front. -/
def Plain (i : Instruction) : Prop :=
  i.opcode ≠ .ret ∧ i.opcode ≠ .ascii ∧ i.fetchesArgument = false

theorem Straight.plain {env : Env} {i : Instruction} (h : Straight env i) : Plain i := by
  cases h with
  | binary op => cases op <;> exact ⟨by decide, by decide, rfl⟩
  | unary op => cases op <;> exact ⟨by decide, by decide, rfl⟩
  | _ =>
    exact ⟨by simp [Instruction.on, Instruction.bare],
      by simp [Instruction.on, Instruction.bare], rfl⟩

theorem Assembled.settled_plain {env : Env} {x : List String} {s s' : Supply} {items : List Item}
    (h : Assembled env x s items s') : ∀ i ∈ settle items, Plain i := by
  intro j hj
  rcases mem_settleFrom hj with ⟨l, rfl⟩ | ⟨i, hi, ho, ht⟩
  · exact ⟨by simp [Instruction.carrier, Instruction.labelled, Instruction.bare],
      by simp [Instruction.carrier, Instruction.labelled, Instruction.bare], rfl⟩
  · have hp : Plain i := by
      rcases h.ops_cases i hi with hs | ⟨l, rfl⟩ | ⟨l, rfl | rfl⟩
      · exact hs.plain
      all_goals exact ⟨by simp [Instruction.on], by simp [Instruction.on], rfl⟩
    simpa [Plain, Instruction.fetchesArgument, ho, ht] using hp

end Lowering

namespace Build

variable {s : Script} {source : String} {seed : Nat} {p : Program} (b : Build s source seed p)

theorem listing_eq (p : Program) :
    p.listing = .on .br (.target (.plain Label.entry)) :: (p.data.code ++
      (p.strings.toList.flatMap Block.code ++ (p.routines.flatMap Block.code ++
        (p.topLevel.code ++ [.bare .finish])))) := by
  simp [Program.listing, Program.instructions, Program.blocks]

theorem nodup_listing (b : Build s source seed p) (hn : s.Named) :
    ((labels p.listing).map Label.text).Nodup := by
  have hl : labels p.listing = labels p.instructions := by
    rw [Program.listing, labels_cons, labels_append]
    simp [Instruction.on, Instruction.bare, labels_cons]
  rw [hl]
  exact b.nodup_label_texts hn

theorem exists_site (hn : s.Named) {x : Routine × Frame × List Item} (hx : x ∈ b.pieces) :
    ∃ entry stop, x.2.1.Site x.2.2 p.listing entry stop := by
  obtain ⟨-, -, hf⟩ := b.routine_eq_of_mem hx
  obtain ⟨s₁, s₂, ha, -⟩ := b.piece_assembled hx
  have hm : x.2.1.assemble x.2.2 ∈ p.routines := b.blocks_eq ▸ List.mem_map_of_mem hx
  obtain ⟨us, vs, huv⟩ := List.append_of_mem hm
  have hlist : p.listing = (.on .br (.target (.plain Label.entry)) :: (p.data.code ++
      (p.strings.toList.flatMap Block.code ++ us.flatMap Block.code))) ++
        ((x.2.1.assemble x.2.2).code ++
        (vs.flatMap Block.code ++ (p.topLevel.code ++ [.bare .finish]))) := by
    rw [listing_eq, huv]
    simp
  refine Frame.exists_site (b.nodup_listing hn) hlist hf fun i hi => ?_
  obtain ⟨hr, -, ha⟩ := ha.settled_plain i hi
  exact ⟨hr, ha⟩

/-- The top level lies at the end of the listing, from the entry of the program on. -/
theorem exists_top (hn : s.Named) :
    ∃ entry start stop, position? p.listing Label.entry = some entry ∧
    Skips p.listing entry start ∧ Laid p.listing start b.top stop ∧ stop + 2 = p.listing.length ∧
    ∃ i ∈ p.topLevel.code, p.listing[stop]? = some i ∧ i.opcode = .stop := by
  have hlist : p.listing = (.on .br (.target (.plain Label.entry)) :: (p.data.code ++
      (p.strings.toList.flatMap Block.code ++ p.routines.flatMap Block.code))) ++
        (p.topLevel.code ++ [.bare .finish]) := by
    rw [listing_eq]
    simp
  generalize hbefore : Instruction.on .br (.target (.plain Label.entry)) :: (p.data.code ++
      (p.strings.toList.flatMap Block.code ++ p.routines.flatMap Block.code)) = before at hlist
  have hp := placed_of_eq_append (b.nodup_listing hn) hlist
  have hlen := congrArg List.length hlist
  have htop : p.topLevel.code = withLabel (.plain Label.entry) (settle b.top ++ [.bare .stop]) := by
    rw [b.topLevel_eq]
    rfl
  rw [List.length_append, List.length_append, htop] at hlen
  rw [htop] at hp
  obtain ⟨hl, start, hs, hp, hstop⟩ := placed_of_withLabel hp
  obtain ⟨hbody, ⟨⟨i, hi, ho, -⟩, -⟩, -⟩ := placed_append.1 hp
  have hsettle : (settleFrom [] b.top).length = (settle b.top).length := rfl
  have hstart : before.length ≤ start := by
    rcases hs with rfl | ⟨-, rfl⟩ <;> omega
  simp only [List.length_append, List.length_singleton] at hstop hlen
  refine ⟨_, start, _, hl, hs, laid_of_placed hbody, by omega, i, ?_, hi, ho⟩
  rw [hlist, List.getElem?_append_right (by omega), htop,
    List.getElem?_append_left (by omega)] at hi
  rw [htop]
  exact List.mem_of_getElem? hi

theorem mem_listing {c : Block} (hc : c ∈ p.blocks) {i : Instruction} (hi : i ∈ c.code) :
    i ∈ p.listing := by
  have hm : i ∈ p.instructions := List.mem_flatMap.2 ⟨c, hc, hi⟩
  exact List.mem_cons_of_mem _ (List.mem_append_left _ hm)

/-- Only the block of constants holds texts. -/
theorem exists_entry_of_ascii {i : Instruction} (hi : i ∈ p.listing) (ho : i.opcode = .ascii) :
    ∃ e ∈ b.final.strings.entries, i = StringPool.declaration e.1 e.2 := by
  rw [listing_eq] at hi
  simp only [List.mem_cons, List.mem_append, List.not_mem_nil, or_false] at hi
  rcases hi with rfl | hi | hi | hi | hi | rfl
  · simp [Instruction.on] at ho
  · obtain ⟨h | h | h, -⟩ := b.mem_data hi <;> simp [ho] at h
  · rw [b.strings_eq, Script.flatMap_stringBlock] at hi
    obtain ⟨e, he, rfl⟩ := List.mem_map.1 hi
    exact ⟨e, he, rfl⟩
  · rw [b.blocks_eq] at hi
    obtain ⟨c, hc, hi⟩ := List.mem_flatMap.1 hi
    obtain ⟨x, hx, rfl⟩ := List.mem_map.1 hc
    rcases Frame.mem_assemble hi with hi | hi | hi | hi
    · obtain ⟨s₁, s₂, ha, -⟩ := b.piece_assembled hx
      exact absurd ho (ha.settled_plain i hi).2.1
    · obtain ⟨h | h, -⟩ := Frame.mem_reservation hi <;> simp [ho] at h
    · rcases Frame.mem_prologue hi with ⟨h, -⟩ | ⟨k, h, -⟩ | ⟨n, k, -, h, -⟩ <;> simp [ho] at h
    · obtain ⟨h | h, -⟩ := Frame.mem_epilogue hi <;> simp [ho] at h
  · rcases b.mem_topLevel hi with ⟨h | h, -⟩ | ⟨j, hj, h, -⟩
    · simp [ho] at h
    · simp [ho] at h
    · exact absurd (h.symm.trans ho) (b.topBody_assembled.settled_plain j hj).2.1
  · simp [Instruction.bare] at ho

theorem nodup_texts : (b.final.strings.entries.map Prod.fst).Nodup := by
  have hbodies : ∀ {pairs s₁ pieces s₂}, b.layout.Bodies pairs s₁ pieces s₂ →
      (s₁.strings.entries.map Prod.fst).Nodup → (s₂.strings.entries.map Prod.fst).Nodup := by
    intro pairs s₁ pieces s₂ h
    induction h with
    | nil => exact id
    | cons h _ ih => exact fun hs => ih ((Lowering.Assembled.ofStmts _ h).nodup_texts hs)
  exact hbodies b.bodies
    (b.topBody_assembled.nodup_texts (by simp [Supply.start, StringPool.empty]))

/-- The label of a string constant is at the place where the machine finds the text. A constant with
the same bytes has the same text, so that it is the same entry. -/
theorem exists_constant (hn : s.Named) {t : String} {n : Nat}
    (h : (t, n) ∈ b.final.strings.entries) :
    ∃ k, position? p.listing (StringPool.labelOf n).text = some k ∧
      constant? p.listing t = some k := by
  have hm : StringPool.declaration t n ∈ p.listing := by
    rw [listing_eq, b.strings_eq, Script.flatMap_stringBlock]
    have hd : StringPool.declaration t n ∈ b.final.strings.declarations :=
      List.mem_map.2 ⟨(t, n), h, rfl⟩
    simp [hd]
  have hbytes : ∀ t n, (StringPool.declaration t n).bytes? =
      some (t.toUTF8.data.toList ++ [0]) := by
    intro t n
    simp [StringPool.declaration, Instruction.bytes?, Instruction.labelled, Instruction.on,
      ByteString.decode?_encode]
  obtain ⟨k, hk⟩ := List.mem_iff_getElem?.1 hm
  have hpos := position?_eq_some (b.nodup_listing hn) hk rfl
  obtain ⟨hlt, hget⟩ := List.getElem?_eq_some_iff.1 hk
  refine ⟨k, hpos, List.findIdx?_eq_some_iff_getElem.2
    ⟨hlt, by simp [hget, hbytes], fun j hj hb => ?_⟩⟩
  have hjlt : j < p.listing.length := by omega
  have hb : p.listing[j].bytes? = some (t.toUTF8.data.toList ++ [0]) := by simpa using hb
  have ho : p.listing[j].opcode = .ascii := by
    unfold Instruction.bytes? at hb
    split at hb
    next ho _ => exact ho
    next => simp at hb
  obtain ⟨⟨t', n'⟩, he, hi⟩ := b.exists_entry_of_ascii (List.getElem_mem hjlt) ho
  rw [hi, hbytes] at hb
  have ht : t' = t := ByteString.toUTF8_injective (List.append_cancel_right (Option.some.inj hb))
  subst ht
  have hne : n' = n := by
    have := List.inj_on_of_nodup_map b.nodup_texts he h rfl
    simpa using this
  subst hne
  have hj' : p.listing[j]? = some (StringPool.declaration t' n') := by
    rw [List.getElem?_eq_getElem hjlt, hi]
  have := (position?_eq_some (b.nodup_listing hn) hj' rfl).symm.trans hpos
  have := Option.some.inj this
  omega

section Initial

variable {W I : Type} (M : Words W I) (input : I)

theorem stored?_staticData (v : Variable) :
    M.stored? (Scope.staticData v) = some (M.zero v.kind) := by
  have hint : digitsValue "0".toList = 0 := by decide
  have hreal : Binary64.read? "0.0".toList = some (.finite (.zero false)) := by decide
  have hs : ∀ o t, M.stored? (((Instruction.on o (.raw t)).labelled (.plain v.name)).commented
      ("global " ++ v.kind.word)) = M.stored? (.on o (.raw t)) := fun _ _ => rfl
  rw [Scope.staticData, hs]
  cases v.kind with
  | real =>
    simp only [VarKind.zero, Words.stored?, Instruction.on, hreal, Option.map_some, Words.zero]
  | _ => simp only [VarKind.zero, Words.stored?, Instruction.on, hint, Words.zero, Int.natCast_zero]

/-- Every global has its cell, which holds the zero of its kind. -/
theorem static_global (hn : s.Named) {g : String} (hg : g ∈ b.layout.globals.names) :
    (State.initial M p.listing input).static g = some ((s.start M input).globals g) := by
  obtain ⟨v, hv, rfl⟩ := List.mem_map.1 hg
  have hm : Scope.staticData v ∈ p.listing := by
    refine mem_listing (c := p.data) (by simp [Program.blocks]) ?_
    rw [b.data_eq]
    exact List.mem_map_of_mem hv
  have hl : labelled? p.listing v.name = some (Scope.staticData v) :=
    labelled?_eq_some (b.nodup_listing hn) hm rfl
  have hk : (Stmt.bindsAll s.body).lookup v.name = some v.kind :=
    Scope.lookup_of_mem_globals (b.globals_eq ▸ hv)
  simp [State.initial, Script.start, hl, hk, stored?_staticData]

theorem static_result (hn : s.Named) {f : Frame} (hf : f ∈ b.layout.frames) :
    (State.initial M p.listing input).static (Label.result f.routine).text = some (M.ofInt 0) := by
  rw [← b.frames_eq] at hf
  obtain ⟨x, hx, rfl⟩ := List.mem_map.1 hf
  have hc : x.2.1.assemble x.2.2 ∈ p.blocks := by
    have hm : x.2.1.assemble x.2.2 ∈ p.routines := b.blocks_eq ▸ List.mem_map_of_mem hx
    simp [Program.blocks, hm]
  have hm : x.2.1.reservation.head (by simp [Frame.reservation]) ∈ p.listing := by
    refine mem_listing hc ?_
    simp only [Frame.assemble, Frame.block, List.mem_append]
    exact .inl (.inl (.inl (List.head_mem _)))
  have hl := labelled?_eq_some (l := .result x.2.1.routine) (b.nodup_listing hn) hm rfl
  simp only [State.initial, hl]
  rfl

end Initial
end Build
end TreeAsm
