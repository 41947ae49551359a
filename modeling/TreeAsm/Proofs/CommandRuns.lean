import TreeAsm.CommandLine.Run
import TreeAsm.Proofs.Build
import TreeAsm.Proofs.Workspaces

/-! Runs of the command line. A run that fails leaves the workspace as it was and prints nothing. A
run that writes to a file changes that file only, and the file then holds what the same command
prints without the option for it. -/
namespace TreeAsm.CommandLine

/-! ### The same command without an output file -/

/-- What an argument of short options is without the output option, and whether the value of this
option is the next argument. -/
def shortOutputless (arg : String) (options : List Char) : List String × Bool :=
  match options.dropWhile (· != 'o') with
  | [] => ([arg], false)
  | _ :: value =>
    (if options.head? = some 'o' then [] else [String.ofList ('-' :: options.takeWhile (· != 'o'))],
      value.isEmpty)

/-- The same for a long option. -/
def longOutputless (arg : String) (option : List Char) : List String × Bool :=
  if String.ofList (option.takeWhile (· != '=')) = "output" then
    ([], (longValue (option.dropWhile (· != '='))).isNone)
  else ([arg], false)

def outputless (arg : String) : List String × Bool :=
  match arg.toList with
  | '-' :: '-' :: r => longOutputless arg r
  | '-' :: c :: r => shortOutputless arg (c :: r)
  | _ => ([arg], false)

/-- The arguments without the output option, however it is spelled, and without its value. `skip`
says that the next argument is the value. -/
def dropOutput (skip : Bool) : List String → List String
  | [] => []
  | arg :: rest =>
    if skip then dropOutput false rest
    else if arg = "--" then arg :: rest
    else (outputless arg).1 ++ dropOutput (outputless arg).2 rest

def withoutOutput (args : List String) : List String := dropOutput false args

namespace Given

def withoutOutput (g : Given) : Given := { g with output := none }

variable (g : Given)

theorem setInput_withoutOutput (v : String) :
    g.withoutOutput.setInput v = (g.setInput v).map withoutOutput := by
  rw [setInput, setInput, apply_ite (Option.map withoutOutput)]
  rfl

theorem setTreeOnly_withoutOutput :
    g.withoutOutput.setTreeOnly = g.setTreeOnly.map withoutOutput := by
  rw [setTreeOnly, setTreeOnly, apply_ite (Option.map withoutOutput)]
  rfl

theorem setVerbose_withoutOutput : g.withoutOutput.setVerbose = g.setVerbose.map withoutOutput := by
  rw [setVerbose, setVerbose, apply_ite (Option.map withoutOutput)]
  rfl

variable {g}

theorem withoutOutput_of_setOutput {g' : Given} {v : String} (h : g.setOutput v = some g') :
    g'.withoutOutput = g.withoutOutput := by
  unfold setOutput at h
  split at h
  next => simp at h
  next => exact Option.some.inj h ▸ rfl

end Given

/-- How the options go on after an argument, if they do. -/
def Next.given? : Next → Option Given
  | .given g => some g
  | .outputOf g => some g
  | .done _ => none

variable {g g' : Given}

/-- The flags before the output option mean what they mean with it. The option takes the next
argument for its value if nothing comes after it. -/
theorem shortOptions_takeWhile {cs : List Char} {next : Next} (h : shortOptions g cs = some next)
    (hg : next.given? = some g') :
    shortOptions g.withoutOutput (cs.takeWhile (· != 'o')) = some (.given g'.withoutOutput) ∧
      ((∃ g₁, next = .outputOf g₁) ↔ cs.dropWhile (· != 'o') = ['o']) := by
  fun_induction shortOptions g cs with
  | case1 g =>
    obtain rfl := Option.some.inj h
    obtain rfl := Option.some.inj hg
    simp [shortOptions]
  | case2 g =>
    obtain rfl := Option.some.inj h
    obtain rfl := Option.some.inj hg
    simp [shortOptions]
  | case3 g c r =>
    obtain ⟨g₁, hset, rfl⟩ := Option.map_eq_some_iff.1 h
    obtain rfl := Option.some.inj hg
    simp [shortOptions, Given.withoutOutput_of_setOutput hset]
  | case4 g r ih =>
    obtain ⟨g₁, hset, h⟩ := Option.bind_eq_some_iff.1 h
    obtain ⟨hflags, hiff⟩ := ih g₁ h
    have htake : ('v' :: r).takeWhile (· != 'o') = 'v' :: r.takeWhile (· != 'o') :=
      List.takeWhile_cons_of_pos (by decide)
    have hdrop : ('v' :: r).dropWhile (· != 'o') = r.dropWhile (· != 'o') :=
      List.dropWhile_cons_of_pos (by decide)
    rw [htake, hdrop, shortOptions, Given.setVerbose_withoutOutput, hset]
    exact ⟨hflags, hiff⟩
  | case5 g r =>
    obtain rfl := Option.some.inj h
    simp [Next.given?] at hg
  | case6 g r =>
    obtain rfl := Option.some.inj h
    simp [Next.given?] at hg
  | case7 => simp at h

theorem argument_dashes (g : Given) : argument g "--" = none := rfl

theorem arguments_cons_given {arg : String} (h : argument g arg = some (.given g'))
    (rest : List String) : arguments g (arg :: rest) = arguments g' rest := by
  conv_lhs => unfold arguments
  split
  next heq => simp at heq
  next heq =>
    obtain ⟨rfl, rfl⟩ := List.cons.inj heq
    simp [argument_dashes] at h
  next heq =>
    obtain ⟨rfl, rfl⟩ := List.cons.inj heq
    rw [h]

def Next.withoutOutput : Next → Next
  | .given g => .given g.withoutOutput
  | .outputOf g => .outputOf g.withoutOutput
  | .done r => .done r

/-- Other long options do not look at the output. -/
theorem longOption_withoutOutput {name : List Char} (hname : String.ofList name ≠ "output")
    (value : Option String) :
    longOption g.withoutOutput name value = (longOption g name value).map Next.withoutOutput := by
  unfold longOption
  split
  next heq => exact absurd heq hname
  next heq => exact absurd heq hname
  next => rw [Given.setTreeOnly_withoutOutput, Option.map_map, Option.map_map]; rfl
  next => rw [Given.setVerbose_withoutOutput, Option.map_map, Option.map_map]; rfl
  next => rfl
  next => rfl
  next => rfl

/-- The output option has its value in the same argument or in the next one, and sets nothing
else. -/
theorem longOption_output {name : List Char} {value : Option String} {next : Next}
    (hname : String.ofList name = "output") (h : longOption g name value = some next)
    (hg : next.given? = some g') :
    g'.withoutOutput = g.withoutOutput ∧ ((∃ g₁, next = .outputOf g₁) ↔ value = none) := by
  unfold longOption at h
  rw [hname] at h
  cases value with
  | none =>
    obtain rfl := Option.some.inj h
    obtain rfl := Option.some.inj hg
    simp
  | some v =>
    obtain ⟨g₁, hset, rfl⟩ := Option.map_eq_some_iff.1 h
    obtain rfl := Option.some.inj hg
    simp [Given.withoutOutput_of_setOutput hset]

theorem longOption_ne_outputOf {name : List Char} (hname : String.ofList name ≠ "output")
    (value : Option String) (g₁ : Given) : longOption g name value ≠ some (.outputOf g₁) := by
  unfold longOption
  split
  next heq => exact absurd heq hname
  next heq => exact absurd heq hname
  all_goals simp

/-- An argument that is not about the output leads to the same options. -/
theorem arguments_cons_kept {arg : String}
    (hkeep : argument g.withoutOutput arg = (argument g arg).map Next.withoutOutput)
    (h : argument g arg = some (.given g')) (rest : List String) :
    arguments g.withoutOutput (arg :: rest) = arguments g'.withoutOutput rest := by
  apply arguments_cons_given
  rw [hkeep, h]
  rfl

theorem argument_short {c : Char} (hc : c ≠ '-') {arg : String} {r : List Char}
    (harg : arg.toList = '-' :: c :: r) (g : Given) : argument g arg = shortOptions g (c :: r) := by
  simp [argument, harg]

/-- Arguments are long options, short options, or names. -/
theorem argument_cases (arg : String) :
    (∃ r, outputless arg = longOutputless arg r ∧
      ∀ g, argument g arg =
        longOption g (r.takeWhile (· != '=')) (longValue (r.dropWhile (· != '=')))) ∨
    (∃ c r, c ≠ '-' ∧ arg.toList = '-' :: c :: r ∧ outputless arg = shortOutputless arg (c :: r)) ∨
    (outputless arg = ([arg], false) ∧ ∀ g, argument g arg = (g.setInput arg).map .given) := by
  rcases harg : arg.toList with _ | ⟨a, _ | ⟨b, r⟩⟩
  · exact .inr (.inr (by simp [argument, outputless, harg]))
  · exact .inr (.inr (by simp [argument, outputless, harg]))
  · by_cases ha : a = '-'
    · by_cases hb : b = '-'
      · exact .inl ⟨r, by simp [argument, outputless, harg, ha, hb]⟩
      · exact .inr (.inl ⟨b, r, hb, by rw [ha], by simp [outputless, harg, ha]⟩)
    · exact .inr (.inr (by simp [argument, outputless, harg, ha]))

/-- Without the output option, an argument of short options leads to the same options. -/
theorem arguments_shortOutputless {arg : String} {c : Char} {r : List Char} {next : Next}
    (hc : c ≠ '-') (harg : arg.toList = '-' :: c :: r) (h : argument g arg = some next)
    (hg : next.given? = some g') :
    (∀ rest, arguments g.withoutOutput ((shortOutputless arg (c :: r)).1 ++ rest) =
      arguments g'.withoutOutput rest) ∧
      ((∃ g₁, next = .outputOf g₁) ↔ (shortOutputless arg (c :: r)).2 = true) := by
  rw [argument_short hc harg] at h
  obtain ⟨hflags, hiff⟩ := shortOptions_takeWhile h hg
  unfold shortOutputless
  split
  next hdrop =>
    have htake : (c :: r).takeWhile (· != 'o') = c :: r := by
      have happend := List.takeWhile_append_dropWhile (p := (· != 'o')) (l := c :: r)
      rwa [hdrop, List.append_nil] at happend
    rw [htake, ← argument_short hc harg] at hflags
    refine ⟨arguments_cons_given hflags, ?_⟩
    rw [hiff, hdrop]
    simp
  next x value hdrop =>
    have hx : x = 'o' := by
      have hhead := List.head?_dropWhile_not (· != 'o') (c :: r)
      rw [hdrop] at hhead
      simpa using hhead
    refine ⟨fun rest => ?_, ?_⟩
    · by_cases ho : c = 'o'
      · rw [ho, List.takeWhile_cons_of_neg (by decide), shortOptions] at hflags
        rw [← Next.given.inj (Option.some.inj hflags), ho]
        rfl
      · rw [List.takeWhile_cons_of_pos (by simpa using ho)] at hflags ⊢
        rw [List.head?_cons, if_neg (by simpa using ho), List.singleton_append]
        apply arguments_cons_given
        rw [argument_short hc String.toList_ofList, hflags]
    · rw [hiff, hdrop, hx]
      simp

/-- Without the output option, an argument leads to the same options, but for the output. -/
theorem arguments_outputless {arg : String} {next : Next} (h : argument g arg = some next)
    (hg : next.given? = some g') :
    (∀ rest, arguments g.withoutOutput ((outputless arg).1 ++ rest) =
      arguments g'.withoutOutput rest) ∧
      ((∃ g₁, next = .outputOf g₁) ↔ (outputless arg).2 = true) := by
  rcases argument_cases arg with ⟨r, hout, hlong⟩ | ⟨c, r, hc, harg, hout⟩ | ⟨hout, hname⟩
  · by_cases hname : String.ofList (r.takeWhile (· != '=')) = "output"
    · obtain ⟨hsame, hiff⟩ := longOption_output hname (hlong g ▸ h) hg
      rw [hout, longOutputless, if_pos hname, hsame, hiff, Option.isNone_iff_eq_none]
      exact ⟨fun _ => rfl, Iff.rfl⟩
    · have hkeep : argument g.withoutOutput arg = (argument g arg).map Next.withoutOutput := by
        rw [hlong, hlong]
        exact longOption_withoutOutput hname _
      rw [hout, longOutputless, if_neg hname]
      cases next with
      | given g₁ =>
        obtain rfl := Option.some.inj hg
        exact ⟨arguments_cons_kept hkeep h, by simp⟩
      | outputOf g₁ => exact absurd (hlong g ▸ h) (longOption_ne_outputOf hname _ g₁)
      | done request => simp [Next.given?] at hg
  · rw [hout]
    exact arguments_shortOutputless hc harg h hg
  · have hkeep : argument g.withoutOutput arg = (argument g arg).map Next.withoutOutput := by
      rw [hname, hname, Given.setInput_withoutOutput, Option.map_map, Option.map_map]
      rfl
    obtain ⟨g₁, -, rfl⟩ := Option.map_eq_some_iff.1 (hname g ▸ h)
    obtain rfl := Option.some.inj hg
    rw [hout]
    exact ⟨arguments_cons_kept hkeep h, by simp⟩

theorem shortOptions_ne_run (cs : List Char) (o : Options) :
    shortOptions g cs ≠ some (.done (.run o)) := by
  fun_induction shortOptions g cs with
  | case4 g r ih =>
    intro h
    obtain ⟨g₁, -, h⟩ := Option.bind_eq_some_iff.1 h
    exact ih g₁ h
  | _ => simp

theorem longOption_ne_run (name : List Char) (value : Option String) (o : Options) :
    longOption g name value ≠ some (.done (.run o)) := by
  unfold longOption
  split <;> simp

/-- A request that needs no more arguments is for the version or for help. -/
theorem argument_ne_run (arg : String) (o : Options) : argument g arg ≠ some (.done (.run o)) := by
  rcases argument_cases arg with ⟨r, -, hlong⟩ | ⟨c, r, hc, harg, -⟩ | ⟨-, hname⟩
  · rw [hlong]
    exact longOption_ne_run _ _ o
  · rw [argument_short hc harg]
    exact shortOptions_ne_run _ o
  · rw [hname]
    simp

theorem inputsOnly_withoutOutput {rest : List String} {o : Options}
    (h : inputsOnly g rest = some (.run o)) :
    inputsOnly g.withoutOutput rest = some (.run { o with output := none }) := by
  induction rest generalizing g with
  | nil =>
    obtain ⟨input, hinput, ho⟩ := Option.map_eq_some_iff.1 h
    obtain rfl := Request.run.inj ho
    exact Option.map_eq_some_iff.2 ⟨input, hinput, rfl⟩
  | cons arg rest ih =>
    obtain ⟨g₁, hset, h⟩ := Option.bind_eq_some_iff.1 h
    rw [inputsOnly, Given.setInput_withoutOutput, hset]
    exact ih h

/-- The command without the output option asks for the same, without an output. -/
theorem arguments_dropOutput {args : List String} {o : Options}
    (h : arguments g args = some (.run o)) :
    arguments g.withoutOutput (dropOutput false args) = some (.run { o with output := none }) := by
  fun_induction arguments g args with
  | case1 g =>
    obtain ⟨input, hinput, ho⟩ := Option.map_eq_some_iff.1 h
    obtain rfl := Request.run.inj ho
    exact Option.map_eq_some_iff.2 ⟨input, hinput, rfl⟩
  | case2 g rest => exact inputsOnly_withoutOutput h
  | case3 => simp at h
  | case4 g arg rest hne request harg =>
    obtain rfl := Option.some.inj h
    exact absurd harg (argument_ne_run arg o)
  | case5 g arg hne g₁ rest harg ih =>
    obtain ⟨hgo, hvalue⟩ := arguments_outputless harg (rfl : (Next.given g₁).given? = some g₁)
    have hskip : (outputless arg).2 = false := by simpa using hvalue
    rw [dropOutput, if_neg Bool.false_ne_true, if_neg hne, hgo, hskip]
    exact ih h
  | case6 => simp at h
  | case7 g arg hne g₁ v rest harg hv ih =>
    obtain ⟨hgo, hvalue⟩ := arguments_outputless harg (rfl : (Next.outputOf g₁).given? = some g₁)
    have hskip : (outputless arg).2 = true := hvalue.1 ⟨g₁, rfl⟩
    obtain ⟨g₂, hset, h⟩ := Option.bind_eq_some_iff.1 h
    rw [dropOutput, if_neg Bool.false_ne_true, if_neg hne, hgo, hskip, dropOutput, if_pos rfl,
      ← Given.withoutOutput_of_setOutput hset]
    exact ih g₂ h
  | case8 => simp at h

theorem ofArguments?_withoutOutput {args : List String} {o : Options}
    (h : Request.ofArguments? args = some (.run o)) :
    Request.ofArguments? (withoutOutput args) = some (.run { o with output := none }) :=
  arguments_dropOutput h

/-! ### What a run does -/

theorem printed_eq (p : Program) : printed p = p.render := Program.run_emit (· ++ ·) "" p

theorem written_eq (p : Program) (place : List String) (w : Workspace) :
    written p place (w.put place .empty) = w.put place p.render.toUTF8 :=
  calc
    written p place (w.put place .empty) =
        (p.lines.map (· ++ "\n")).foldl (·.append place) (w.put place .empty) :=
      Program.run_emit (fun (w : Workspace) text => w.append place text) (w.put place .empty) p
    _ = w.put place p.render.toUTF8 := w.foldl_append_put place "" _

namespace Options

variable {o : Options} {w : Workspace} {s : Script} {p : Program}

/-- The input file holds the tree of the script. -/
def Loads (o : Options) (w : Workspace) (s : Script) : Prop :=
  ∃ content, w.read? o.input = some content ∧ Script.load content = .ok s

/-- The script is compiled, with the input path for the name of its source. -/
def Compiles (o : Options) (w : Workspace) (p : Program) : Prop :=
  o.treeOnly = false ∧ ∃ s, o.Loads w s ∧ s.compile o.input = .ok p

/-- The stages in which a run can fail, each with what it reports: reading, loading, compiling, and
creating the output file. -/
inductive Fails (o : Options) (w : Workspace) : Failure → Prop where
  | reading (h : w.read? o.input = none) : Fails o w (.reading o.input)
  | parsing {content : String} {e : LoadError} (h : w.read? o.input = some content)
      (he : Script.load content = .error e) : Fails o w (.parsing e)
  | compiling {s : Script} {e : CompileError} (hs : o.Loads w s) (ht : o.treeOnly = false)
      (he : s.compile o.input = .error (.rejected e)) : Fails o w (.compiling o.input e)
  | overflow {s : Script} {fault : Fault} (hs : o.Loads w s) (ht : o.treeOnly = false)
      (he : s.compile o.input = .error fault)
      (hfault : ∀ e, fault ≠ .rejected e) : Fails o w .overflow
  | creating {p : Program} {path : String} (hp : o.Compiles w p) (ho : o.output = some path)
      (hc : w.create? path = none) : Fails o w (.creating path)

theorem perform_of_tree (hs : o.Loads w s) (ht : o.treeOnly = true) :
    o.perform w = .success w (s.dump ++ "\n") := by
  obtain ⟨content, hread, hload⟩ := hs
  simp [perform, hread, action, hload, ht, Action.perform]

theorem perform_of_compiles (hp : o.Compiles w p) :
    o.perform w = (Action.list p o.output).perform w := by
  obtain ⟨ht, s, ⟨content, hread, hload⟩, hcompile⟩ := hp
  simp [perform, hread, action, hload, ht, hcompile]

/-- A failure in any stage ends the run before there is output. -/
theorem perform_of_fails {f : Failure} (h : o.Fails w f) : o.perform w = .failed w f := by
  cases h with
  | reading h => simp [perform, h]
  | parsing h he => simp [perform, h, action, he]
  | compiling hs ht he =>
    obtain ⟨content, hread, hload⟩ := hs
    simp [perform, hread, action, hload, ht, he]
  | @overflow s fault hs ht he hfault =>
    obtain ⟨content, hread, hload⟩ := hs
    cases fault with
    | rejected e => exact absurd rfl (hfault e)
    | labelsExhausted => simp [perform, hread, action, hload, ht, he]
    | frameTooWide => simp [perform, hread, action, hload, ht, he]
  | creating hp ho hc => rw [perform_of_compiles hp, ho, Action.perform, hc]

theorem perform_of_output {path : String} (hp : o.Compiles w p) (ho : o.output = some path)
    (hc : w.create? path ≠ none) :
    ∃ w', w.Written path p.render w' ∧ o.perform w = .success w' "" := by
  obtain ⟨⟨place, w₁⟩, hcreate⟩ := Option.ne_none_iff_exists'.1 hc
  obtain ⟨dir, name, hlocate, rfl, rfl⟩ := Workspace.create?_eq_some hcreate
  refine ⟨_, Workspace.written_put hlocate, ?_⟩
  rw [perform_of_compiles hp, ho, Action.perform, hcreate]
  exact congrArg (Outcome.success · "") (written_eq p _ w)

/-- How far a run gets: a stage fails, or there is a tree to print, or a listing and a place for
it. -/
theorem stages (o : Options) (w : Workspace) :
    (∃ f, o.Fails w f) ∨ (∃ s, o.Loads w s ∧ o.treeOnly = true) ∨
      ∃ p, o.Compiles w p ∧ ∀ path, o.output = some path → w.create? path ≠ none := by
  cases hread : w.read? o.input with
  | none => exact .inl ⟨_, .reading hread⟩
  | some content =>
    cases hload : Script.load content with
    | error e => exact .inl ⟨_, .parsing hread hload⟩
    | ok s =>
      have hs : o.Loads w s := ⟨content, hread, hload⟩
      cases ht : o.treeOnly with
      | true => exact .inr (.inl ⟨s, hs, rfl⟩)
      | false =>
        cases hcompile : s.compile o.input with
        | error fault =>
          cases fault with
          | rejected e => exact .inl ⟨_, .compiling hs ht hcompile⟩
          | labelsExhausted => exact .inl ⟨_, .overflow hs ht hcompile (by simp)⟩
          | frameTooWide => exact .inl ⟨_, .overflow hs ht hcompile (by simp)⟩
        | ok p =>
          have hp : o.Compiles w p := ⟨ht, s, hs, hcompile⟩
          by_cases hc : ∃ path, o.output = some path ∧ w.create? path = none
          · obtain ⟨path, ho, hc⟩ := hc
            exact .inl ⟨_, .creating hp ho hc⟩
          · exact .inr (.inr ⟨p, hp, fun path ho hnone => hc ⟨path, ho, hnone⟩⟩)

/-- A run fails for no other reason. -/
theorem fails_of_failure {f : Failure} (h : (o.perform w).failure = some f) : o.Fails w f := by
  rcases o.stages w with ⟨f', hf⟩ | ⟨s, hs, ht⟩ | ⟨p, hp, hc⟩
  · rw [perform_of_fails hf] at h
    exact Option.some.inj h ▸ hf
  · rw [perform_of_tree hs ht] at h
    simp [Outcome.success] at h
  · cases ho : o.output with
    | none =>
      rw [perform_of_compiles hp, ho] at h
      simp [Action.perform, Outcome.success] at h
    | some path =>
      obtain ⟨w', -, hperform⟩ := perform_of_output hp ho (hc path ho)
      rw [hperform] at h
      simp [Outcome.success] at h

end Options

theorem run_eq_perform {args : List String} {o : Options}
    (h : Request.ofArguments? args = some (.run o)) (w : Workspace) : run w args = o.perform w := by
  rw [run, h]

/-- No run leaves partial output. A run fails if and only if one of its stages does, and then it
prints nothing and changes no file. If only the tree is asked for, the run prints it and changes no
file, with or without an output file. If the script is compiled, the command without the output
option prints the listing and changes no file; with that option the run prints nothing, the file
gets the same text, and no other file changes. -/
theorem no_partial_output (w : Workspace) {args : List String} {o : Options}
    (h : Request.ofArguments? args = some (.run o)) :
    (∀ f, (run w args).failure = some f ↔ o.Fails w f) ∧
    (∀ f, o.Fails w f → (run w args).stdout = "" ∧ (run w args).workspace = w) ∧
    (∀ s, o.Loads w s → o.treeOnly = true →
      (run w args).stdout = s.dump ++ "\n" ∧ (run w args).workspace = w) ∧
    ∀ p, o.Compiles w p →
      (run w (withoutOutput args)).stdout = p.render ∧ (run w (withoutOutput args)).workspace = w ∧
      ∀ path, o.output = some path → w.create? path ≠ none →
        (run w args).stdout = "" ∧ w.Written path p.render (run w args).workspace := by
  rw [run_eq_perform h]
  refine ⟨fun f => ⟨Options.fails_of_failure, fun hf => ?_⟩, fun f hf => ?_, fun s hs ht =>
    ?_, fun p hp => ?_⟩
  · rw [Options.perform_of_fails hf]
    rfl
  · rw [Options.perform_of_fails hf]
    exact ⟨rfl, rfl⟩
  · rw [Options.perform_of_tree hs ht]
    exact ⟨rfl, rfl⟩
  · have hprint : run w (withoutOutput args) = .success w p.render := by
      have hcompiles : Options.Compiles { o with output := none } w p := hp
      rw [run_eq_perform (ofArguments?_withoutOutput h), Options.perform_of_compiles hcompiles,
        Action.perform, printed_eq]
    refine ⟨by rw [hprint]; rfl, by rw [hprint]; rfl, fun path ho hc => ?_⟩
    obtain ⟨w', hwritten, hperform⟩ := Options.perform_of_output hp ho hc
    rw [hperform]
    exact ⟨rfl, hwritten⟩

theorem eq_ok_of_toOption {ε α : Type} {x : Except ε α} {a : α}
    (h : x.toOption = some a) : x = .ok a := by
  cases x with
  | error e => simp [Except.toOption] at h
  | ok b => exact congrArg Except.ok (Option.some.inj h)

/-- An input file, an old listing and a file that is no text, in the same directory. -/
def desk : Workspace where
  files :=
    [(["d", "in.json"],
        "\x7b\"body\":[\x7b\"kind\":\"expr\",\"value\":[\"call\",\"input\"]\x7d]\x7d".toUTF8),
      (["d", "out.asm"], "old".toUTF8), (["d", "bytes.json"], ⟨#[0x7B, 0xFF, 0x7D]⟩)]

/-- The listing replaces the old one by another path, a file in no directory cannot be created,
bytes that are no text cannot be read, and the tree is printed also where the input is the
output. -/
theorem desk_no_partial_output :
    withoutOutput ["-vo", "d/../d/out.asm", "--", "d/in.json"] = ["-v", "--", "d/in.json"] ∧
    (∃ text, (run desk ["-v", "--", "d/in.json"]).stdout = text ∧
      (run desk ["-vo", "d/../d/out.asm", "--", "d/in.json"]).stdout = "" ∧
      (run desk ["-vo", "d/../d/out.asm", "--", "d/in.json"]).workspace.read? "d/../d/out.asm" =
        some text ∧
      (run desk ["-vo", "d/../d/out.asm", "--", "d/in.json"]).workspace.read? "d/in.json" =
        desk.read? "d/in.json") ∧
    ((run desk ["d/in.json", "--output=e/out.asm"]).failure = some (.creating "e/out.asm") ∧
      (run desk ["d/in.json", "--output=e/out.asm"]).workspace = desk) ∧
    ((run desk ["-od/out.asm", "d/bytes.json"]).failure = some (.reading "d/bytes.json") ∧
      (run desk ["-od/out.asm", "d/bytes.json"]).stdout = "" ∧
      (run desk ["-od/out.asm", "d/bytes.json"]).workspace = desk) ∧
    (run desk ["--ast-only", "-o=d/in.json", "d/in.json"]).stdout =
        Script.dump ⟨[.eval 0 (.call "input" [])]⟩ ++ "\n" ∧
      (run desk ["--ast-only", "-o=d/in.json", "d/in.json"]).workspace = desk := by
  have hload : ∀ o : Options, o.input = "d/in.json" →
      o.Loads desk ⟨[.eval 0 (.call "input" [])]⟩ := by
    rintro o ho
    refine ⟨"\x7b\"body\":[\x7b\"kind\":\"expr\",\"value\":[\"call\",\"input\"]\x7d]\x7d", ?_, ?_⟩
    · rw [ho]
      decide +kernel
    · exact eq_ok_of_toOption (by decide +kernel)
  obtain ⟨p, hp⟩ : ∃ p, Script.compile ⟨[.eval 0 (.call "input" [])]⟩ "d/in.json" = .ok p :=
    exists_eq_ok (by decide)
  have hcompiles : ∀ o : Options, o.input = "d/in.json" → o.treeOnly = false →
      o.Compiles desk p := by
    intro o ho ht
    refine ⟨ht, _, hload o ho, ?_⟩
    rw [ho]
    exact hp
  have hlisting : Request.ofArguments? ["-vo", "d/../d/out.asm", "--", "d/in.json"] =
      some (.run ⟨"d/in.json", some "d/../d/out.asm", false, true⟩) := by decide +kernel
  have hastray : Request.ofArguments? ["d/in.json", "--output=e/out.asm"] =
      some (.run ⟨"d/in.json", some "e/out.asm", false, false⟩) := by decide +kernel
  have hbytes : Request.ofArguments? ["-od/out.asm", "d/bytes.json"] =
      some (.run ⟨"d/bytes.json", some "d/out.asm", false, false⟩) := by decide +kernel
  have htree : Request.ofArguments? ["--ast-only", "-o=d/in.json", "d/in.json"] =
      some (.run ⟨"d/in.json", some "d/in.json", true, false⟩) := by decide +kernel
  refine ⟨by decide, ⟨p.render, ?_⟩, ?_, ?_, ?_⟩
  · obtain ⟨-, -, -, h⟩ := no_partial_output desk hlisting
    obtain ⟨hprinted, -, hwrite⟩ := h p (hcompiles _ rfl rfl)
    obtain ⟨hstdout, hwritten⟩ := hwrite _ rfl (by decide +kernel)
    exact ⟨hprinted, hstdout, hwritten.read_self, hwritten.read_other (by decide +kernel)⟩
  · obtain ⟨hiff, hfails, -, -⟩ := no_partial_output desk hastray
    have hcreating := Options.Fails.creating
      (hcompiles ⟨"d/in.json", some "e/out.asm", false, false⟩ rfl rfl) rfl (by decide +kernel)
    exact ⟨(hiff _).2 hcreating, (hfails _ hcreating).2⟩
  · obtain ⟨hiff, hfails, -, -⟩ := no_partial_output desk hbytes
    have hreading : Options.Fails ⟨"d/bytes.json", some "d/out.asm", false, false⟩ desk
        (.reading "d/bytes.json") := .reading (by decide +kernel)
    exact ⟨(hiff _).2 hreading, hfails _ hreading⟩
  · obtain ⟨-, -, h, -⟩ := no_partial_output desk htree
    exact h _ (hload _ rfl) rfl

end TreeAsm.CommandLine
