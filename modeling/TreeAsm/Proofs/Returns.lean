import TreeAsm.Proofs.Activations
import TreeAsm.Proofs.Preservation

/-! Whose result a call gives. Each routine has one static cell for its result, which all its calls
share, and only a `return` stores in it: a call that comes to its end without one gives what is left
there. -/
namespace TreeAsm
open Code

variable {W I : Type}

/-- What has happened in a run, as far as calls and static cells go. Calls are numbered as they are
made. -/
structure History where
  /-- The routine of each call. -/
  calls : List String
  /-- The calls that run, the innermost first. -/
  running : List Nat
  /-- The call that stored last in the cell of this label. -/
  writer : String → Option Nat
  /-- The calls that have come to a `return`. -/
  returned : List Nat

namespace History

def start : History := ⟨[], [], fun _ => none, []⟩

/-- What has happened after one more event. Results and returns belong to the innermost call. -/
def advance (g : History) : Event → History
  | .plain => g
  | .store text => { g with writer := Function.update g.writer text g.running.head? }
  | .leave => { g with returned := g.running.head?.toList ++ g.returned }
  | .call text => { g with calls := g.calls ++ [text], running := g.calls.length :: g.running }
  | .ret => { g with running := g.running.tail }

end History

/-- Where a call goes back to when it has left its frame. -/
def State.back? (c : State W I) : Option Nat :=
  match c.stack with
  | .back a :: _ => some a
  | _ => none

/-- From this place on, the code fetches the result of the routine, after it has dropped arguments
if there are any. -/
def Fetches (code : List Instruction) (a : Nat) (f : String) : Prop :=
  Does code a (.on .push (.mem (.static (.result f)))) ∨
    ∃ n, Does code a (.on .addsp (.imm n)) ∧
      Does code (a + 1) (.on .push (.mem (.static (.result f))))

section Run

variable [DecidableEq W] (M : Words W I) (code : List Instruction) (input : I)

/-- The states of a run, each with what has happened before. -/
inductive Run : State W I → History → Prop where
  | start : Run (State.initial M code input) .start
  | step {c c' : State W I} {g : History} {i : Instruction} (h : Run c g)
      (hi : code[c.pc]? = some i)
      (hs : step M code c = some c') : Run c' (g.advance i.event)

/-- All states that the machine reaches are states of a run. -/
theorem exists_run_of_reaches {c : State W I} (h : Reaches M code (State.initial M code input) c) :
    ∃ g, Run M code input c g := by
  induction h with
  | refl => exact ⟨_, .start⟩
  | tail _ hs ih =>
    obtain ⟨g, hg⟩ := ih
    obtain ⟨i, hi, -⟩ := Option.bind_eq_some_iff.1 hs
    exact ⟨_, hg.step hi hs⟩

/-- The state after so many steps, if the machine takes them. -/
def runFor : Nat → Option (State W I × History)
  | 0 => some (State.initial M code input, .start)
  | n + 1 => (runFor n).bind fun x => code[x.1.pc]?.bind fun i =>
    (step M code x.1).map fun c => (c, x.2.advance i.event)

theorem run_of_runFor {n : Nat} {x : State W I × History} (h : runFor M code input n = some x) :
    Run M code input x.1 x.2 := by
  induction n generalizing x with
  | zero =>
    obtain rfl := Option.some.inj h
    exact .start
  | succ n ih =>
    obtain ⟨y, hy, h⟩ := Option.bind_eq_some_iff.1 h
    obtain ⟨i, hi, h⟩ := Option.bind_eq_some_iff.1 h
    obtain ⟨c, hc, rfl⟩ := Option.map_eq_some_iff.1 h
    exact (ih hy).step hi hc

end Run

namespace Build

variable {s : Script} {source : String} {seed : Nat} {p : Program} {b : Build s source seed p}

/-- What is known of the results at each stage: a call has stored one if and only if it has come to
a `return`, and a call that waits has not. -/
structure Ledger (b : Build s source seed p) (M : Words W I) (c : State W I) (g : History)
    (given closing : Bool) : Prop where
  running_lt : ∀ j ∈ g.running, j < g.calls.length
  nodup : g.running.Nodup
  returned_lt : ∀ j ∈ g.returned, j < g.calls.length
  waiting : ∀ j ∈ g.running.tail, j ∉ g.returned
  going : closing = false → ∀ j ∈ g.running.head?, j ∉ g.returned
  writer : ∀ r ∈ s.routines, ∀ j, g.writer (Label.result r.name).text = some j →
    g.calls[j]? = some r.name ∧ (j ∈ g.returned ∨ given = true ∧ g.running.head? = some j)
  own : ∀ r ∈ s.routines, ∀ j ∈ g.running.head?, g.calls[j]? = some r.name → given = true ∨
    j ∈ g.returned → g.writer (Label.result r.name).text = some j
  unwritten : ∀ r ∈ s.routines, g.writer (Label.result r.name).text = none →
    c.static (Label.result r.name).text = some (M.ofInt 0)

/-- No result is kept under the name of a global. -/
theorem result_ne_global (hn : s.Named) {name : String} (hg : name ∈ b.layout.globals.names)
    {r : Routine} (hr : r ∈ s.routines) : (Label.result r.name).text ≠ name := by
  obtain ⟨f, hf, hfr⟩ := List.mem_map.1 (b.routine_names_eq ▸ List.mem_map_of_mem hr)
  rw [← hfr]
  exact b.result_text_ne hn hg hf

namespace Ledger

variable {M : Words W I} {c c' : State W I} {g : History} {given closing closing' : Bool}

theorem initial [DecidableEq W] (hn : s.Named) (input : I) :
    b.Ledger M (State.initial M p.listing input) .start false false where
  running_lt := nofun
  nodup := List.nodup_nil
  returned_lt := nofun
  waiting := nofun
  going _ := nofun
  writer _ _ := nofun
  own _ _ := nofun
  unwritten r hr _ := by
    obtain ⟨f, hf, hfr⟩ := List.mem_map.1 (b.routine_names_eq ▸ List.mem_map_of_mem hr)
    rw [← hfr]
    exact b.static_result M input hn hf

/-- Nothing has happened to calls and results. -/
theorem goes (h : b.Ledger M c g false closing) (hc : closing = true → closing' = true)
    {writer : String → Option Nat}
    (hw : ∀ r ∈ s.routines, writer (Label.result r.name).text = g.writer (Label.result r.name).text)
    (hs : ∀ r ∈ s.routines, c'.static (Label.result r.name).text =
      c.static (Label.result r.name).text) :
    b.Ledger M c' { g with writer } false closing' where
  running_lt := h.running_lt
  nodup := h.nodup
  returned_lt := h.returned_lt
  waiting := h.waiting
  going hc' := h.going (Bool.eq_false_iff.2 fun ht => by simp [hc ht] at hc')
  writer r hr j hj := h.writer r hr j (hw r hr ▸ hj)
  own r hr j hj hcalls hgiven := (hw r hr).trans (h.own r hr j hj hcalls hgiven)
  unwritten r hr hnone := (hs r hr).trans (h.unwritten r hr (hw r hr ▸ hnone))

/-- The innermost call has stored its result. -/
theorem gives (h : b.Ledger M c g false false) {f : String} {n : Nat} {rest : List Nat}
    (hr : g.running = n :: rest) (hf : g.calls[n]? = some f)
    (hs : ∀ text, Event.store (Label.result f).text ≠ .store text →
      c'.static text = c.static text) :
    b.Ledger M c' (g.advance (.store (Label.result f).text)) true closing' where
  running_lt := h.running_lt
  nodup := h.nodup
  returned_lt := h.returned_lt
  waiting := h.waiting
  going _ := h.going rfl
  writer r hr' j hj := by
    by_cases he : r.name = f
    · subst he
      have hj : g.running.head? = some j := by simpa [History.advance] using hj
      obtain rfl : n = j := by simpa [hr] using hj
      exact ⟨hf, .inr ⟨rfl, hj⟩⟩
    · have hne : (Label.result r.name).text ≠ (Label.result f).text :=
        fun ht => he (result_text_injective ht)
      obtain ⟨hcall, hret | ⟨hgiven, -⟩⟩ :=
        h.writer r hr' j (by simpa [History.advance, hne] using hj)
      · exact ⟨hcall, .inl hret⟩
      · simp at hgiven
  own r hr' j hj hcall _ := by
    obtain rfl : n = j := by simpa [History.advance, hr] using hj
    obtain rfl := Option.some.inj (hf.symm.trans hcall)
    simp [History.advance, hr]
  unwritten r hr' hnone := by
    have hne : (Label.result r.name).text ≠ (Label.result f).text := by
      intro ht
      simp [History.advance, ht, hr] at hnone
    rw [hs _ fun ht => hne (Event.store.inj ht).symm]
    exact h.unwritten r hr' (by simpa [History.advance, hne] using hnone)

/-- The innermost call has come to a `return`. -/
theorem leaves (h : b.Ledger M c g true false) {n : Nat} {rest : List Nat}
    (hr : g.running = n :: rest) (hs : c'.static = c.static) :
    b.Ledger M c' (g.advance .leave) false true := by
  have hnodup := h.nodup
  have hlt := h.running_lt n (by simp [hr])
  have hwaiting := h.waiting
  simp only [hr, List.nodup_cons, List.tail_cons] at hnodup hwaiting
  have hreturned : (g.advance .leave).returned = n :: g.returned := by simp [History.advance, hr]
  refine ⟨h.running_lt, h.nodup, ?_, ?_, nofun, ?_, ?_, fun r hr' hnone =>
    hs ▸ h.unwritten r hr' hnone⟩
  · intro j hj
    rcases List.mem_cons.1 (hreturned ▸ hj) with rfl | hj
    · exact hlt
    · exact h.returned_lt j hj
  · intro j hj
    have hj : j ∈ rest := by simpa [History.advance, hr] using hj
    rw [hreturned, List.mem_cons]
    rintro (rfl | hret)
    · exact hnodup.1 hj
    · exact hwaiting j hj hret
  · intro r hr' j hj
    obtain ⟨hcall, hret | ⟨-, hhead⟩⟩ := h.writer r hr' j hj
    · exact ⟨hcall, .inl (by simp [hreturned, hret])⟩
    · obtain rfl : n = j := by simpa [hr] using hhead
      exact ⟨hcall, .inl (by simp [hreturned])⟩
  · exact fun r hr' j hj hcall _ => h.own r hr' j hj hcall (.inl rfl)

/-- A call has been made. -/
theorem enters (h : b.Ledger M c g false false) (f : String) (hs : c'.static = c.static) :
    b.Ledger M c' (g.advance (.call f)) false false := by
  have hlength : (g.advance (.call f)).calls.length = g.calls.length + 1 := by
    simp [History.advance]
  refine ⟨?_, ?_, ?_, ?_, ?_, ?_, ?_, fun r hr hnone => hs ▸ h.unwritten r hr hnone⟩
  · intro j hj
    rw [hlength]
    rcases List.mem_cons.1 hj with rfl | hj
    · exact Nat.lt_succ_self _
    · exact Nat.lt_succ_of_lt (h.running_lt j hj)
  · exact List.nodup_cons.2 ⟨fun hj => Nat.lt_irrefl _ (h.running_lt _ hj), h.nodup⟩
  · intro j hj
    rw [hlength]
    exact Nat.lt_succ_of_lt (h.returned_lt j hj)
  · intro j hj
    have hj : j ∈ g.running := hj
    cases hr : g.running with
    | nil => simp [hr] at hj
    | cons n rest =>
      rw [hr] at hj
      rcases List.mem_cons.1 hj with rfl | hj
      · exact h.going rfl j (by simp [hr])
      · exact h.waiting j (by simpa [hr] using hj)
  · intro _ j hj hret
    obtain rfl : g.calls.length = j := Option.some.inj hj
    exact Nat.lt_irrefl _ (h.returned_lt _ hret)
  · intro r hr j hj
    obtain ⟨hcall, hret | ⟨hgiven, -⟩⟩ := h.writer r hr j hj
    · have hlt := (List.getElem?_eq_some_iff.1 hcall).1
      exact ⟨by rw [← hcall]; exact List.getElem?_append_left hlt, .inl hret⟩
    · simp at hgiven
  · rintro r hr j hj - (hgiven | hret)
    · simp at hgiven
    · obtain rfl : g.calls.length = j := Option.some.inj hj
      exact absurd (h.returned_lt _ hret) (Nat.lt_irrefl _)

/-- The innermost call has returned to its caller, which has not come to a `return`. What waited was
not at its end, so that nothing has been stored for the call that goes on. -/
theorem returns (h : b.Ledger M c g false true) {n : Nat} {rest : List Nat}
    (hr : g.running = n :: rest) (hs : c'.static = c.static) :
    b.Ledger M c' (g.advance .ret) false closing' := by
  have hrunning : (g.advance .ret).running = rest := by simp [History.advance, hr]
  have hnodup := h.nodup
  have hlt := h.running_lt
  have hwaiting := h.waiting
  simp only [hr, List.nodup_cons, List.tail_cons] at hnodup hwaiting hlt
  refine ⟨?_, ?_, h.returned_lt, ?_, ?_, ?_, ?_, fun r hr' hnone => hs ▸ h.unwritten r hr' hnone⟩
  · rw [hrunning]
    exact fun j hj => hlt j (List.mem_cons_of_mem _ hj)
  · rw [hrunning]
    exact hnodup.2
  · rw [hrunning]
    exact fun j hj => hwaiting j (List.mem_of_mem_tail hj)
  · rw [hrunning]
    exact fun _ j hj => hwaiting j (List.mem_of_mem_head? hj)
  · intro r hr' j hj
    obtain ⟨hcall, hret | ⟨hgiven, -⟩⟩ := h.writer r hr' j hj
    · exact ⟨hcall, .inl hret⟩
    · simp at hgiven
  · rw [hrunning]
    rintro r - j hj - (hgiven | hret)
    · simp at hgiven
    · exact absurd hret (hwaiting j (List.mem_of_mem_head? hj))

end Ledger

/-- Where the machine is and what is known there. -/
def Keeps (b : Build s source seed p) (M : Words W I) (c : State W I) (g : History) : Prop :=
  ∃ given closing, b.Stage g.calls c g.running given closing ∧ b.Ledger M c g given closing

variable {M : Words W I} {c c' : State W I} {g : History}

/-- One step keeps the account. -/
theorem Keeps.step [DecidableEq W] (h : b.Keeps M c g) (hn : s.Named) {i : Instruction}
    (hi : p.listing[c.pc]? = some i) (hs : step M p.listing c = some c') :
    b.Keeps M c' (g.advance i.event) := by
  obtain ⟨given, closing, hstage, hledger⟩ := h
  obtain ⟨hstatic, hturn⟩ := hstage.turn hn hi hs
  generalize i.event = e at hstatic hturn
  have hsame : (∀ text, e ≠ .store text) → c'.static = c.static :=
    fun he => funext fun text => hstatic text (he text)
  cases hturn with
  | goes he hc hnext =>
    rcases he with rfl | ⟨name, hg, rfl⟩
    · exact ⟨_, _, hnext, hledger.goes hc (fun _ _ => rfl) fun _ _ => by rw [hsame nofun]⟩
    · refine ⟨_, _, hnext, hledger.goes hc (fun r hr => ?_) fun r hr => ?_⟩
      · exact Function.update_of_ne (b.result_ne_global hn hg hr) _ _
      · exact hstatic _ fun ht => b.result_ne_global hn hg hr (Event.store.inj ht).symm
  | gives hx hr hf he hnext =>
    subst he
    exact ⟨_, _, hnext, hledger.gives hr hf hstatic⟩
  | leaves hr he hnext =>
    subst he
    exact ⟨_, _, hnext, hledger.leaves hr (hsame nofun)⟩
  | enters hy he hnext =>
    subst he
    exact ⟨_, _, hnext, hledger.enters _ (hsame nofun)⟩
  | @returns n rest closing' hr he hnext =>
    subst he
    refine ⟨false, closing', ?_, hledger.returns hr (hsame nofun)⟩
    rw [History.advance, hr]
    exact hnext

/-- The account is kept along the whole run. -/
theorem keeps_of_run [DecidableEq W] (hn : s.Named) {input : I} (h : Run M p.listing input c g) :
    b.Keeps M c g := by
  induction h with
  | start => exact ⟨false, false, .boot rfl rfl rfl, .initial hn input⟩
  | step _ hi hs ih => exact ih.step hn hi hs

/-- A routine returns when it has left its frame. -/
theorem Stage.waits_of_ret {calls : List String} {running : List Nat} {given closing : Bool}
    (h : b.Stage calls c running given closing) {i : Instruction} (hi : p.listing[c.pc]? = some i)
    (ho : i.opcode = .ret) :
    given = false ∧ ∃ x ∈ b.pieces, b.Waits calls x c.stack c.base running := by
  have other : ∀ {j : Instruction}, Does p.listing c.pc j → j.opcode = .ret := by
    rintro j ⟨i', hi', hj, -⟩
    obtain rfl := Option.some.inj (hi.symm.trans hi')
    exact hj.symm.trans ho
  cases h with
  | boot hpc _ _ =>
    have hbr := other (j := .on .br (.target (.plain Label.entry))) ⟨_, by rw [hpc]; rfl, rfl, rfl⟩
    simp [Instruction.on] at hbr
  | @body ρ o k _ hat =>
    obtain ⟨j, hj⟩ : ∃ j, (inner p ρ)[k]? = some j := ⟨_, List.getElem?_eq_getElem hat.lt⟩
    have hret := other (hat.pc ▸ (hat.starts.placed.get hj).1)
    rcases hat.starts.inner_cases hj with ⟨hbody, -⟩ | ⟨x, -, rfl, -⟩ | ⟨-, hstop⟩
    · simp [hret, Opcode.isBody, Opcode.isOrdinary, Opcode.operands, Opcode.isBranch] at hbody
    · simp [Instruction.labelled, Instruction.bare] at hret
    · simp [hret] at hstop
  | entering _ hspot hpc _ =>
    have henter := other (hpc ▸ hspot.enter)
    simp [Instruction.on] at henter
  | leaving hx _ _ hw => exact ⟨rfl, _, hx, hw⟩

end Build

namespace Script

/-- Whose result a returning call gives: its own if and only if it has come to a `return`. Otherwise
the cell holds zero if no call of the routine has come to a `return` yet, and else what another
call, which has ended, has left there. -/
theorem result_written_by_returned_call [DecidableEq W] {s : Script} (hn : s.Named)
    {source : String} {seed : Nat} {p : Program} (h : (s.compileFrom source seed).result = .ok p)
    (M : Words W I) {input : I} {c : State W I} {g : History} (hrun : Run M p.listing input c g)
    {i : Instruction} (hi : p.listing[c.pc]? = some i) (hret : i.opcode = .ret) :
    ∃ r ∈ s.routines, ∃ k rest, g.running = k :: rest ∧ g.calls[k]? = some r.name ∧
      (∃ site stack, c.stack = .back (site + 1) :: stack ∧
        Does p.listing site (.on .call (.target (.plain r.name)))) ∧
      (g.writer (Label.result r.name).text = some k ↔ k ∈ g.returned) ∧
      (k ∉ g.returned →
        (g.writer (Label.result r.name).text = none ∧
          c.static (Label.result r.name).text = some (M.ofInt 0)) ∨
        ∃ j ∈ g.returned, j ∉ g.running ∧ g.calls[j]? = some r.name ∧
          g.writer (Label.result r.name).text = some j) := by
  obtain ⟨b⟩ := Build.nonempty h
  obtain ⟨given, closing, hstage, hledger⟩ := b.keeps_of_run hn hrun
  obtain ⟨rfl, x, hx, hwaits⟩ := hstage.waits_of_ret hi hret
  obtain ⟨k, rest, hrunning, hcall⟩ := hwaits.running_eq
  have hr := (b.routine_eq_of_mem hx).2.1
  have hhead : g.running.head? = some k := by rw [hrunning]; rfl
  have hwriter : ∀ j, g.writer (Label.result x.1.name).text = some j →
      g.calls[j]? = some x.1.name ∧ j ∈ g.returned := by
    intro j hj
    obtain ⟨hj, hret | ⟨hgiven, -⟩⟩ := hledger.writer x.1 hr j hj
    · exact ⟨hj, hret⟩
    · simp at hgiven
  refine ⟨x.1, hr, k, rest, hrunning, hcall, hwaits.site, ⟨fun hw => (hwriter k hw).2, fun hk =>
    hledger.own x.1 hr k hhead hcall (.inr hk)⟩, fun hk => ?_⟩
  cases hw : g.writer (Label.result x.1.name).text with
  | none => exact .inl ⟨rfl, hledger.unwritten x.1 hr hw⟩
  | some j =>
    obtain ⟨hj, hjret⟩ := hwriter j hw
    refine .inr ⟨j, hjret, ?_, hj, rfl⟩
    rw [hrunning, List.mem_cons]
    rintro (rfl | hrest)
    · exact hk hjret
    · exact hledger.waiting j (by rwa [hrunning]) hjret

/-- A routine that comes to a `return` for some arguments only. -/
def leftover : Script where
  body :=
    [.define 1 "f" [⟨"x", none⟩] [.ifElse 2 (.name "x") [.ret 3 (some (.literal (.int 5)))] []],
      .assign 4 [.name "a"] (.call "f" [.literal (.int 1)]),
      .assign 5 [.name "b"] (.call "f" [.literal (.int 0)])]

theorem leftover_named : leftover.Named := ⟨by decide, by decide, by decide, by decide⟩

/-- The second call comes to its end without a `return`, and finds what the first one has left. The
code that it goes back to drops the argument and fetches the result. -/
theorem leftover_second_call : ∃ p, (leftover.compileFrom "leftover" 0).result = .ok p ∧
    ∃ c g i, Run integers p.listing [] c g ∧ p.listing[c.pc]? = some i ∧ i.opcode = .ret ∧
      g.calls = ["f", "f"] ∧ g.running = [1] ∧ g.returned = [0] ∧
      g.writer (Label.result "f").text = some 0 ∧ c.static (Label.result "f").text = some 5 ∧
      ∃ a, c.back? = some a ∧ p.listing[a]? = some (.on .addsp (.imm 1)) ∧
        p.listing[a + 1]? = some (.on .push (.mem (.static (.result "f")))) := by
  have heval : ((leftover.compileFrom "leftover" 0).result.toOption.any fun p =>
      (runFor integers p.listing [] 25).any fun x => p.listing[x.1.pc]?.any fun i =>
        x.1.back?.any fun a =>
          i.opcode = .ret ∧ x.2.calls = ["f", "f"] ∧ x.2.running = [1] ∧ x.2.returned = [0] ∧
            x.2.writer (Label.result "f").text = some 0 ∧
            x.1.static (Label.result "f").text = some 5 ∧
            p.listing[a]? = some (.on .addsp (.imm 1)) ∧
            p.listing[a + 1]? = some (.on .push (.mem (.static (.result "f"))))) = true := by
    decide +kernel
  obtain ⟨p, hp, h⟩ := (Option.any_eq_true _ _).1 heval
  obtain ⟨⟨c, g⟩, hx, h⟩ := (Option.any_eq_true _ _).1 h
  obtain ⟨i, hi, h⟩ := (Option.any_eq_true _ _).1 h
  obtain ⟨a, ha, h⟩ := (Option.any_eq_true _ _).1 h
  obtain ⟨hret, hcalls, hrunning, hreturned, hwriter, hcell, hdrop, hfetch⟩ := of_decide_eq_true h
  refine ⟨p, ?_, c, g, i, run_of_runFor _ _ _ hx, hi, hret, hcalls, hrunning, hreturned, hwriter,
    hcell, a, ha, hdrop, hfetch⟩
  cases hr : (leftover.compileFrom "leftover" 0).result with
  | ok q =>
    rw [hr] at hp
    exact congrArg _ (Option.some.inj hp)
  | error e => simp [hr, Except.toOption] at hp

/-- Not every call gives its own result, even where the result is fetched. -/
theorem not_every_result_own : ¬ ∀ (s : Script) (p : Program) (c : State Int (List Int))
    (g : History) (i : Instruction) (a k : Nat) (f : String), s.Named →
      (s.compileFrom "leftover" 0).result = .ok p → Run integers p.listing [] c g →
      p.listing[c.pc]? = some i → i.opcode = .ret → c.back? = some a → Fetches p.listing a f →
      g.running.head? = some k → g.calls[k]? = some f →
      g.writer (Label.result f).text = some k := by
  intro hall
  obtain ⟨p, hp, c, g, i, hrun, hi, hret, hcalls, hrunning, -, hwriter, -, a, ha, hdrop, hfetch⟩ :=
    leftover_second_call
  have hfetches : Fetches p.listing a "f" := .inr ⟨1, ⟨_, hdrop, rfl, rfl⟩, _, hfetch, rfl, rfl⟩
  have hown := hall leftover p c g i a 1 "f" leftover_named hp hrun hi hret ha hfetches
    (by rw [hrunning]; rfl) (by rw [hcalls]; rfl)
  rw [hwriter] at hown
  exact absurd hown (by decide)

theorem leftover_result_found :
    ∃ p c g i, (leftover.compileFrom "leftover" 0).result = .ok p ∧
    Run integers p.listing [] c g ∧ p.listing[c.pc]? = some i ∧ i.opcode = .ret ∧ g.running = [1] ∧
      ∃ j ∈ g.returned, j ∉ g.running ∧ g.calls[j]? = some "f" ∧
        g.writer (Label.result "f").text = some j := by
  obtain ⟨p, hp, c, g, i, hrun, hi, hret, hcalls, hrunning, hreturned, hwriter, -⟩ :=
    leftover_second_call
  obtain ⟨r, -, k, rest, hk, hcall, -, -, hfall⟩ :=
    result_written_by_returned_call leftover_named hp integers hrun hi hret
  obtain ⟨rfl, -⟩ := List.cons.inj (hrunning.symm.trans hk)
  have hname : r.name = "f" := by simpa [hcalls, eq_comm] using hcall
  rw [hname] at hfall
  rcases hfall (by rw [hreturned]; decide) with ⟨hnone, -⟩ | hfound
  · simp [hwriter] at hnone
  · exact ⟨p, c, g, i, hp, hrun, hi, hret, hrunning, hfound⟩

end Script
end TreeAsm
