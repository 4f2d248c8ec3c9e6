import TinyImp.Proofs.Code.CallOrder

/-!
# The protocol of calls

In the code of every program, a call with `n` arguments pushes the results of the arguments with the
indices from `0` to `n - 1`, calls, and takes `4 * n` bytes off the stack again; nothing else pushes
or frees (`Program.callsAt_assembly`). In a clean compilation **the function that is called has a
label further up in the code, and `n` parameters in the header that comes last before the call in
the source** (`calls_follow_protocol`).

The headers in front of a call site are those in front of the call in the source
(`sourceCalls_perm`), and those of the context in which the call is well formed (`callsFit_reads`).
-/

namespace TinyImp

open Asm
open Grammar (words)

/-! ### Parameters and arguments -/

/-- Of the headers in front of the call, the last one with its name has as many parameters as the
call has arguments. -/
def CallSite.Fits (site : CallSite) : Prop :=
  ∃ before params after, site.spot.headers = before ++ (site.name, params) :: after ∧
    (∀ header ∈ after, header.1 ≠ site.name) ∧ params.length = site.args.length

/-- The calls of a well-formed phrase fit, if the headers in front of it are those of the context.
A block is entered with some declarations. -/
def Phrase.CallsFit : Phrase → Prop
  | .statement s => ∀ (Γ : Context) (spot : Spot), WellFormed Γ (.statement s) →
      spot.headers = Γ.headers → ∀ site ∈ s.callSites spot false, site.Fits
  | .body ss => ∀ (Γ : Context) (spot : Spot), WellFormed Γ (.body ss) →
      spot.headers = Γ.headers → ∀ site ∈ Stmt.callSitesAll spot none false ss, site.Fits
  | .block ss => ∀ (Γ : Context) (ds : List Param) (spot : Spot),
      WellFormed (Γ.enter ds) (.body ss) → spot.headers = Γ.headers →
      ∀ site ∈ Stmt.callSitesAll spot none false ss, site.Fits

section Readings

variable {ts : List Located} {c c' : Checker}

/-- A call that is well formed has as many arguments as its function has parameters. -/
private theorem callsFit_readsSimple {s : Stmt} (h : ReadsSimple ts c s c') {Γ : Context}
    {spot : Spot}
    (hs : WellFormed Γ (.statement s)) (hspot : spot.headers = Γ.headers) (inBlock : Bool) :
    ∀ site ∈ s.callSites spot inBlock, site.Fits := by
  cases h with
  | declare | declareAssign | assign => exact List.forall_mem_nil _
  | call hargs =>
    obtain ⟨-, params, ⟨before, after, hheaders, hafter⟩, htypes⟩ := WellFormed.call_iff.mp hs
    refine List.forall_mem_singleton.mpr ⟨before, params, after, hspot.trans hheaders, hafter, ?_⟩
    have hlength := htypes.length_eq
    rwa [List.length_map, eq_comm] at hlength

private theorem callsFit_reads {p : Phrase} (h : Reads ts c p c') : p.CallsFit := by
  induction h with
  | simple h => exact fun Γ spot hs hspot => callsFit_readsSimple h hs hspot false
  | @function _ _ _ _ name _ _ _ params _ _ _ _ _ _ ih =>
    intro Γ spot hs hspot
    have hheaders : spot.headers ++ [(name, params)] = Γ.headers ++ [(name, params)] :=
      congrArg (· ++ _) hspot
    exact ih (Γ.extend [] [(name, params)]) params _ (WellFormed.function_iff.mp hs) hheaders
  | ifThen _ _ ih =>
    intro Γ spot hs hspot
    exact ih Γ [] _ (WellFormed.block_iff.mp (WellFormed.ifThen_iff.mp hs).2) hspot
  | @ifElse _ _ _ _ _ _ _ _ _ _ _ _ ss _ _ _ _ ih ih' =>
    intro Γ spot hs hspot
    obtain ⟨⟨-, hbody⟩, hotherwise⟩ := WellFormed.ifElse_iff.mp hs
    refine List.forall_mem_append.mpr ⟨?_, ?_⟩
    · exact ih Γ [] _ (WellFormed.block_iff.mp hbody) hspot
    · have hheaders : spot.headers ++ Stmt.headersAll ss = Γ.headers ++ Stmt.headersAll ss :=
        congrArg (· ++ _) hspot
      exact ih' (Γ.after (.block ss)) [] _ (WellFormed.block_iff.mp hotherwise) hheaders
  | loop _ _ ih =>
    intro Γ spot hs hspot
    exact ih Γ [] _ (WellFormed.block_iff.mp (WellFormed.loop_iff.mp hs).2) hspot
  | @forLoop _ _ _ _ _ _ _ _ _ _ _ _ _ _ init step e ss hinit _ hstep _ ih =>
    intro Γ spot hs hspot
    obtain ⟨⟨⟨hΓ, -⟩, hΓ₁⟩, hΓ₂⟩ := (WellFormed.forLoop_iff rfl).mp hs
    have hheaders : (spot.after init).headers = Γ.headers ++ init.headers :=
      congrArg (· ++ _) hspot
    -- the step has no header, so that the body sees those in front of the step
    have hbody : (spot.after init).headers = Γ.headers ++ init.headers ++ step.headers := by
      rw [hheaders, headers_of_readsSimple hstep, List.append_nil]
    rw [Stmt.callSites_for]
    simp only [List.forall_mem_append]
    refine ⟨callsFit_readsSimple hinit hΓ hspot true, ?_, ?_⟩
    · exact ih _ [] _ (WellFormed.block_iff.mp hΓ₂) hbody
    · refine callsFit_readsSimple hstep hΓ₁ ?_ false
      exact hheaders
  | ret => exact fun _ _ _ _ => List.forall_mem_nil _
  | nil => exact fun _ _ _ _ => List.forall_mem_nil _
  | cons _ _ ih ih' =>
    intro Γ spot hs hspot
    obtain ⟨hfirst, hrest⟩ := WellFormed.cons_iff.mp hs
    rw [Stmt.callSitesAll_cons]
    refine List.forall_mem_append.mpr ⟨ih Γ spot hfirst hspot, ih' _ _ hrest ?_⟩
    exact congrArg (· ++ _) hspot
  | block _ ih => exact fun Γ ds spot hs hspot => ih (Γ.enter ds) spot hs hspot

end Readings

/-! ### Programs -/

/-- The code of a program has its calls at their sites, and no other line that uses the stack. -/
theorem Program.callsAt_assembly (p : Program) : CallsAt 0 p.assembly.text p.callSites :=
  Stmt.callsAt_codeAll {} none false p.body

/-- The code of a call in the code of a program. The lines that evaluate the arguments come before
the pushes, and no other push does. -/
theorem Program.exists_protocol (p : Program) {site : CallSite} (hsite : site ∈ p.callSites) :
    ∃ before after, p.assembly.text = before ++ site.protocol ++ after ∧
      before.length = site.first ∧ site.evaluation <:+ before ∧
      ∀ src k, before.getLast? ≠ some (.push src k) := by
  obtain ⟨before, after, htext, hline, hlast⟩ := p.callsAt_assembly.exists_eq hsite
  refine ⟨before ++ site.evaluation, after, ?_, ?_, List.suffix_append _ _, fun src k h => ?_⟩
  · rw [htext]
    simp only [List.append_assoc]
  · rw [List.length_append, CallSite.first, ← hline, Nat.zero_add]
  · rw [List.getLast?_append] at h
    cases hevaluation : site.evaluation.getLast? with
    | none => exact hlast src k (by simpa [hevaluation] using h)
    | some i =>
      obtain rfl : i = .push src k := by simpa [hevaluation] using h
      have hplain := Args.usesStack_of_mem_code (List.mem_of_getLast? hevaluation)
      cases hplain

/-- The labels of a program stand in front of the calls. -/
theorem Program.exists_label (p : Program) {site : CallSite} (hsite : site ∈ p.callSites)
    (hfits : site.Fits) : ∃ j < site.line, p.assembly.text[j]? = some (.label site.name) := by
  have hcode : CodeAt p.assembly.text 0 (Stmt.codeAll 0 0 p.body) :=
    ⟨[], [], by simp [assembly], rfl⟩
  have hlabelled := Stmt.labelled_callSitesAll {} none false p.body hcode
    (List.forall_mem_nil _) (by simp) site hsite
  obtain ⟨before, params, after, hheaders, -, -⟩ := hfits
  obtain ⟨j, hj, hlabel⟩ := hlabelled (site.name, params) (by simp [hheaders])
  refine ⟨j, ?_, hlabel⟩
  rw [CallSite.line, CallSite.first]
  omega

/-- Every line that uses the stack belongs to a call. -/
theorem Program.exists_site (p : Program) {n : Nat} {i : Instr}
    (hi : p.assembly.text[n]? = some i) (hstack : i.usesStack = true) :
    ∃ site ∈ p.callSites,
      (∃ src k, i = .push src k ∧ k < site.args.length ∧
        n + site.args.length = site.line + k) ∨
      (i = .call site.name ∧ n = site.line) ∨
      (i = .freeStack (4 * site.args.length) ∧ n = site.line + 1) := by
  obtain ⟨site, hsite, k, hn, hk⟩ := p.callsAt_assembly.exists_site hi hstack
  rw [Nat.zero_add] at hn
  refine ⟨site, hsite, ?_⟩
  rcases site.getElem?_protocol hk with ⟨src, rfl, hlt⟩ | ⟨rfl, rfl⟩ | ⟨rfl, rfl⟩
  · refine .inl ⟨src, k, rfl, hlt, ?_⟩
    rw [hn, CallSite.line]
    omega
  · exact .inr (.inl ⟨rfl, hn⟩)
  · exact .inr (.inr ⟨rfl, hn⟩)

/-- The calls of a clean compilation fit. -/
theorem fits_of_isClean {source : String} {p : Program}
    (hp : (compile source {}).program = .ok p) (hclean : (compile source {}).isClean = true) :
    ∀ site ∈ p.callSites, site.Fits := by
  obtain ⟨c₁, hreads, -⟩ := parse_eq_ok_iff.mp (parse_of_compile hp)
  exact callsFit_reads hreads {} {} (wellFormed_of_isClean hp hclean) rfl

/-- The calls of a program, with the headers in front of them, are those in its source. -/
theorem sourceCalls_perm {source : String} {options : Options} {p : Program}
    (hp : (compile source options).program = .ok p) :
    (sourceCalls [] false (words (scan source).tokens)).Perm
      (p.callSites.map CallSite.inSource) := by
  obtain ⟨c₁, hreads, -⟩ := parse_eq_ok_iff.mp (parse_of_compile hp)
  obtain ⟨calls, hcalls, hsites⟩ := shownBy_reads hreads [] []
  have hall : sourceCalls [] false (words (scan source).tokens) = calls := by
    simpa [sourceCalls] using hcalls
  rw [hall]
  exact hsites {} rfl

/-- **The protocol of calls.** The call sites of a program are its calls, in the order of the code.
At each site the results of the arguments are pushed with the indices from zero on, first to last
and without another push in front of them, the function is called, and four bytes are freed for each
argument; the lines that come right before compute these results, whatever values the arguments
have. No other line of the code is a call, or pushes or frees anything.

Where the program is that of a source, its call sites have the same headers in front of them as the
calls in the source. If its compilation is clean, the function that is called has a label further up
in the code, and as many parameters as there are arguments, by the last of these headers. -/
theorem calls_follow_protocol (p : Program) :
    p.callSites.map (fun site => (site.name, site.args)) = p.statements.filterMap Stmt.call? ∧
      p.callSites.Pairwise (fun a b => a.line < b.line) ∧
      (∀ site ∈ p.callSites,
        (∃ before after, p.assembly.text = before ++
            ((Args.operands site.spot.reg site.args).mapIdx (fun i src => .push src i) ++
              [.call site.name, .freeStack (4 * site.args.length)]) ++ after ∧
          before.length + site.args.length = site.line ∧ site.evaluation <:+ before ∧
          ∀ src k, before.getLast? ≠ some (.push src k)) ∧
        ∀ (V : Type) (I : Interpretation V) (m : Memory V) (vs : List V),
          site.args.map (Expr.eval I m.store) = vs.map some →
          ∃ m', m.effects I site.evaluation = some m' ∧ m'.store = m.store ∧
            (Args.operands site.spot.reg site.args).map (m'.read I) = vs) ∧
      (∀ n f, p.assembly.text[n]? = some (.call f) →
        ∃ site ∈ p.callSites, n = site.line ∧ f = site.name) ∧
      (∀ n src k, p.assembly.text[n]? = some (.push src k) →
        ∃ site ∈ p.callSites, k < site.args.length ∧ n + site.args.length = site.line + k) ∧
      (∀ n bytes, p.assembly.text[n]? = some (.freeStack bytes) →
        ∃ site ∈ p.callSites, n = site.line + 1) ∧
      ∀ source, (compile source {}).program = .ok p →
        (sourceCalls [] false (words (scan source).tokens)).Perm
          (p.callSites.map CallSite.inSource) ∧
        ((compile source {}).isClean = true → ∀ site ∈ p.callSites,
          (∃ j < site.line, p.assembly.text[j]? = some (.label site.name)) ∧ site.Fits) := by
  refine ⟨Stmt.map_callSitesAll _ _ _ p.body, p.callsAt_assembly.pairwise,
    fun site hsite => ⟨?_, fun V I m vs hvs => ?_⟩, fun n f hn => ?_, fun n src k hn => ?_,
    fun n bytes hn => ?_, fun source hp => ⟨sourceCalls_perm hp, fun hclean site hsite => ?_⟩⟩
  · obtain ⟨before, after, htext, hline, hsuffix, hlast⟩ := p.exists_protocol hsite
    exact ⟨before, after, htext, congrArg (· + _) hline, hsuffix, hlast⟩
  · obtain ⟨m', heffects, hagree, hread⟩ := Args.computes I hvs site.spot.reg
    exact ⟨m', heffects, hagree.store_eq, hread⟩
  · obtain ⟨site, hsite, ⟨_, _, ⟨⟩, _⟩ | ⟨⟨⟩, hline⟩ | ⟨⟨⟩, _⟩⟩ := p.exists_site hn rfl
    exact ⟨site, hsite, hline, rfl⟩
  · obtain ⟨site, hsite, ⟨_, _, ⟨⟩, hk, hline⟩ | ⟨⟨⟩, _⟩ | ⟨⟨⟩, _⟩⟩ := p.exists_site hn rfl
    exact ⟨site, hsite, hk, hline⟩
  · obtain ⟨site, hsite, ⟨_, _, ⟨⟩, _⟩ | ⟨⟨⟩, _⟩ | ⟨⟨⟩, hline⟩⟩ := p.exists_site hn rfl
    exact ⟨site, hsite, hline⟩
  · have hfits := fits_of_isClean hp hclean site hsite
    exact ⟨p.exists_label hsite hfits, hfits⟩

/-- A function, and a loop that calls it in its header and declares it again in its body, with a
parameter. -/
def redeclaredInside : String :=
  "int f() \x7b \x7d for (f(); 0; f()) \x7b int f(int a) \x7b \x7d \x7d"

/-- The step has its code behind that of the inner function, and calls with the parameters of the
outer one. -/
theorem redeclaredInside_calls :
    (compile redeclaredInside {}).isClean = true ∧
      ∃ p, (compile redeclaredInside {}).program = .ok p ∧
        p.callSites.map (fun site => (site.line, site.name, site.inSource.1)) =
          [(3, "f", ["f"]), (12, "f", ["f"])] ∧
        p.assembly.text[10]? = some (.label "f") ∧
        ∀ site ∈ p.callSites,
          (∃ j < site.line, p.assembly.text[j]? = some (.label site.name)) ∧ site.Fits := by
  have hclean : (compile redeclaredInside {}).isClean = true := by decide +kernel
  refine ⟨hclean, ?_⟩
  have hshape : (compile redeclaredInside {}).program.toOption.map (fun p =>
      (p.callSites.map (fun site => (site.line, site.name, site.inSource.1)),
        p.assembly.text[10]?)) =
      some ([(3, "f", ["f"]), (12, "f", ["f"])], some (.label "f")) := by decide +kernel
  cases hp : (compile redeclaredInside {}).program with
  | error e => simp [Compilation.isClean, hp, Except.isOk, Except.toBool] at hclean
  | ok p =>
    rw [hp] at hshape
    obtain ⟨hsites, hlabel⟩ := Prod.mk.inj (Option.some.inj hshape)
    obtain ⟨-, -, -, -, -, -, hsource⟩ := calls_follow_protocol p
    exact ⟨p, rfl, hsites, hlabel, (hsource redeclaredInside hp).2 hclean⟩

end TinyImp
