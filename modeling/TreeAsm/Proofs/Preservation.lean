import TreeAsm.Proofs.Simulation

/-! Compiled programs run as their scripts do: whatever words are and whatever the operators do with
them, a script that ends leaves the machine at the end of the top level with the same output, the
same rest of the input and the same globals. -/
namespace TreeAsm
open Code

variable {W I : Type}

/-- The machine has come to the end of the top level, the last instruction in front of the end mark,
and left nothing on the stack. -/
structure Program.Stopped [DecidableEq W] (p : Program) (M : Words W I) (c : State W I) : Prop where
  pc : c.pc + 2 = p.listing.length
  stop : ∃ i ∈ p.topLevel.code, p.listing[c.pc]? = some i ∧ i.opcode = .stop
  stays : step M p.listing c = none
  stack : c.stack = []

namespace Build

variable {s : Script} {source : String} {seed : Nat} {p : Program} (b : Build s source seed p)

/-- At top level there are no slots, and nothing lies below them. -/
def topActivation : Activation W := ⟨none, [], 0⟩

theorem represents_initial (hn : s.Named) (M : Words W I) (input : I) :
    b.Represents topActivation 0 [] (s.start M input) (State.initial M p.listing input) :=
  ⟨rfl, ⟨[], ⟨rfl, nofun⟩, rfl⟩, rfl, rfl, fun _ hg => b.static_global M input hn hg,
    fun _ hf => b.static_result M input hn hf, rfl, rfl⟩

variable [DecidableEq W]

theorem stopped_of_represents {M : Words W I} {stop : Nat} {st : Store W I} {c : State W I}
    (hc : b.Represents topActivation stop [] st c) (hlen : stop + 2 = p.listing.length)
    (hstop : ∃ i ∈ p.topLevel.code, p.listing[stop]? = some i ∧ i.opcode = .stop) :
    p.Stopped M c := by
  have hpc := hc.pc
  subst hpc
  obtain ⟨slots, hs, hstack⟩ := hc.stack
  obtain rfl : slots = [] := List.length_eq_zero_iff.1 hs.length_eq
  obtain ⟨i, hm, hi, ho⟩ := hstop
  refine ⟨hlen, ⟨i, hm, hi, ho⟩, ?_, hstack⟩
  rw [step, hi, Option.bind_some, ho]
  rfl

theorem exists_stopped (hn : s.Named) {M : Words W I} {input : I} {st : Store W I}
    (h : s.RunsAll M (M.address p.listing) none (s.start M input) s.body .next st) :
    ∃ c stop, Reaches M p.listing (State.initial M p.listing input) c ∧ p.Stopped M c ∧
      b.Represents topActivation stop [] st c := by
  obtain ⟨entry, start, stop, hentry, hskip, hlaid, hlen, hstop⟩ := b.exists_top hn
  have hjump : Does p.listing 0 (.on .br (.target (.plain Label.entry))) := ⟨_, rfl, rfl, rfl⟩
  have hw : (Lowering.stmts b.layout.topEnv s.topLevel).Writes b.final.strings.entries b.top :=
    ⟨_, _, b.top_yields, b.bodies.spends.entries_prefix⟩
  have hbody : b.Leads M topActivation start [] (s.start M input) stop [] st :=
    performsAll_of_runsAll hn h.filter_routine? _ _ _ _ _ _ .top hlaid hw rfl
  have hrun : b.Leads M topActivation 0 [] (s.start M input) stop [] st :=
    ((leads_jump hjump hentry).trans (leads_skip hskip)).trans hbody
  obtain ⟨c, hr, hc⟩ := hrun _ (b.represents_initial hn M input)
  exact ⟨c, stop, hr, b.stopped_of_represents hc hlen hstop, hc⟩

end Build

namespace Script

/-- A script that ends is run to its end by the machine. -/
theorem machine_run_agrees [DecidableEq W] {s : Script} (hn : s.Named) {source : String}
    {seed : Nat} {p : Program} (h : (s.compileFrom source seed).result = .ok p) (M : Words W I)
    (input : I) {st : Store W I}
    (hrun : s.RunsAll M (M.address p.listing) none (s.start M input) s.body .next st) :
    ∃ c, Reaches M p.listing (State.initial M p.listing input) c ∧ p.Stopped M c ∧
      c.output = st.output ∧ c.input = st.input ∧
      ∀ g ∈ (Stmt.bindsAll s.body).map Prod.fst, c.static g = some (st.globals g) := by
  obtain ⟨b⟩ := Build.nonempty h
  obtain ⟨c, stop, hr, hs, hc⟩ := b.exists_stopped hn hrun
  refine ⟨c, hr, hs, hc.output, hc.input, fun g hg => hc.globals g ?_⟩
  rw [b.globals_eq]
  exact Scope.mem_names_globals.2 hg

/-- Words are integers, and the input is a list of them. -/
def integers : Words Int (List Int) where
  ofInt n := n
  ofReal _ := 0
  ofAddress a := a
  binary
    | .add => fun a b => a + b
    | .sub => fun a b => a - b
    | .mul => fun a b => a * b
    | _ => fun a b => if a < b then 1 else 0
  unary _ a := -a
  read
    | [] => none
    | a :: r => some (a, r)
  blank := 7

/-- A routine with a parameter that is named twice: it counts down until something else than zero is
read, and returns from inside the loop. -/
def countdown : Script where
  body :=
    [.define 1 "wait" [⟨"n", none⟩, ⟨"n", none⟩]
      [.whileLoop 2 (.name "n")
        [.ifElse 3 (.call "input" []) [.ret 4 (some (.name "n"))] [],
          .update 5 (.name "n") .sub (.literal (.int 1))]],
      .assign 6 [.name "left"]
        (.binary .add (.literal (.int 10)) (.call "wait" [.literal (.int 3)])),
      .eval 7 (.call "print" [.name "left"])]

/-- The second word read is not zero, so two are left of three. -/
theorem countdown_calls (text : String → Int) :
    ∃ st, countdown.Calls integers text none
      (countdown.start integers [0, 5, 8]) "wait" [.literal (.int 3)] st ∧ st.results "wait" = 2 ∧
        st.output = [] ∧ st.input = [8] := by
  have hinput : countdown.hasRoutine "input" = false := by decide
  refine ⟨_, .intro (r := ⟨1, "wait", [⟨"n", none⟩, ⟨"n", none⟩], _⟩) List.mem_cons_self
    (.cons (.literal ..) (.nil ..))
    rfl
    (.returned _ (.whileNext (.name ..) ?_ (.cons (.ifFalse _ _ (.input hinput rfl) rfl (.nil ..))
      (.cons (.update _ _ _ (.literal ..)) (.nil ..))) (.whileReturned _ (.name ..) ?_
        (.returned _ (.ifTrue _ _ (.input hinput rfl) ?_ (.returned _ (.ret _ (.name ..)))))))), ?_⟩
  · show (3 : Int) ≠ 0
    decide
  · show (2 : Int) ≠ 0
    decide
  · show (5 : Int) ≠ 0
    decide
  · exact ⟨rfl, rfl, rfl⟩

theorem countdown_runs (text : String → Int) :
    ∃ st, countdown.RunsAll integers text none
      (countdown.start integers [0, 5, 8]) countdown.body .next st ∧ st.output = [12] ∧
        st.input = [8] ∧ st.globals "left" = 12 := by
  have hprint : countdown.hasRoutine "print" = false := by decide
  obtain ⟨st, hcall, hresult, houtput, hinput⟩ := countdown_calls text
  have hvalue : integers.binary .add (integers.literal text (.int 10)) (st.results "wait") =
      12 := by rw [hresult]; rfl
  refine ⟨_, .cons (.define ..) (.cons (.assign _ _ (.binary _ (.literal ..) (.call hcall)))
    (.cons (.print _ hprint (.name ..)) (.nil ..))), ?_⟩
  rw [hvalue]
  exact ⟨by simp [Store.print, Store.set, Store.get, own, houtput], hinput,
    by simp [Store.print, Store.set, own]⟩

theorem countdown_compiles : ∃ p, (countdown.compileFrom "countdown" 0).result = .ok p :=
  exists_eq_ok (by decide)

theorem countdown_machine_run :
    countdown.Named ∧ ∃ p, (countdown.compileFrom "countdown" 0).result = .ok p ∧
      ∃ c, Reaches integers p.listing (State.initial integers p.listing [0, 5, 8]) c ∧
        p.Stopped integers c ∧ c.output = [12] ∧ c.input = [8] ∧ c.static "left" = some 12 := by
  have hn : countdown.Named := ⟨by decide, by decide, by decide, by decide⟩
  obtain ⟨p, h⟩ := countdown_compiles
  obtain ⟨st, hrun, houtput, hinput, hleft⟩ := countdown_runs (integers.address p.listing)
  obtain ⟨c, hreach, hstop, ho, hi, hg⟩ := machine_run_agrees hn h integers [0, 5, 8] hrun
  have hstatic : c.static "left" = some (st.globals "left") := hg "left" (by decide)
  refine ⟨hn, p, h, c, hreach, hstop, ?_, ?_, ?_⟩
  · rw [ho, houtput]
  · rw [hi, hinput]
  · rw [hstatic, hleft]

end Script
end TreeAsm
