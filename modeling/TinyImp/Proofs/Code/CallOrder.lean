import TinyImp.Proofs.Checking.Scoping
import TinyImp.Proofs.Code.CallSites
import TinyImp.Proofs.Parsing.Grammar

/-!
# Calls in the source

A call and a function header can be told from the tokens alone: both are a name with an opening
parenthesis behind it, and only in a header a type stands in front of the name. Reading the tokens
of a program from the first to the last in this way gives **the calls of its call sites, each with
the same headers in front of it** (`shownBy_reads`). The order of the calls is another one where a
`for` loop is concerned.
-/

namespace TinyImp

open Grammar (words)

/-! ### Reading calls off the tokens -/

/-- The calls among tokens, first to last, each with the names in the function headers in front of
it. `typed` tells that a type stands in front of the tokens. -/
def sourceCalls (headers : List String) (typed : Bool) : List Token → List (List String × String)
  | .identifier name :: .openParen :: rest =>
    if typed then sourceCalls (headers ++ [name]) false rest
    else (headers, name) :: sourceCalls headers false rest
  | w :: rest => sourceCalls headers w.isTypeSpecifier rest
  | [] => []

section Tokens

variable {headers : List String} {typed : Bool} {name : String} {w : Token}
  {us vs rest : List Token}

/-- A token that is no identifier begins no call. It may be the type of what follows. -/
private theorem sourceCalls_cons (hw : ∀ name, w ≠ .identifier name) :
    sourceCalls headers typed (w :: rest) = sourceCalls headers w.isTypeSpecifier rest := by
  rw [sourceCalls]
  rintro name rest rfl
  exact absurd rfl (hw name)

/-- A type in front of a name with an opening parenthesis makes it a header. -/
theorem sourceCalls_header {type : Ty} (hw : w.type? = some type) :
    sourceCalls headers typed (w :: .identifier name :: .openParen :: rest) =
      sourceCalls (headers ++ [name]) false rest := by
  obtain rfl | rfl := Token.type?_eq_some hw <;> rfl

/-- An identifier without a parenthesis behind it is no call. -/
private theorem sourceCalls_identifier (hrest : rest.head? ≠ some .openParen) :
    sourceCalls headers typed (.identifier name :: rest) = sourceCalls headers false rest := by
  rw [sourceCalls]
  · rfl
  · rintro _ rest - rfl
    exact hrest rfl

/-- There is neither a call nor a header among the tokens, nor a type at their end. -/
def NoCalls (ws : List Token) : Prop :=
  ∀ headers typed rest, rest.head? ≠ some .openParen →
    sourceCalls headers typed (ws ++ rest) = sourceCalls headers false rest

/-- The token ends whatever stands in front of it. -/
def Token.separates : Token → Bool
  | .identifier _ | .openParen | .kwInt | .kwFloat => false
  | _ => true

/-- Behind a separator nothing is typed. -/
private theorem sourceCalls_separator (hw : w.separates = true) :
    sourceCalls headers typed (w :: rest) = sourceCalls headers false rest := by
  rw [sourceCalls_cons (by rintro _ rfl; cases hw)]
  cases w <;> simp_all [Token.separates, Token.isTypeSpecifier, Token.type?]

/-- Up to a separating token. -/
theorem NoCalls.separated (h : NoCalls us) (hw : w.separates = true) :
    sourceCalls headers typed (us ++ w :: rest) = sourceCalls headers false rest := by
  have hhead : (w :: rest).head? ≠ some .openParen := by
    rintro ⟨⟩
    cases hw
  rw [h headers typed (w :: rest) hhead, sourceCalls_separator hw]

/-- Two pieces without calls have none with a separator between them. -/
private theorem NoCalls.join (h : NoCalls us) (hw : w.separates = true) (h' : NoCalls vs) :
    NoCalls (us ++ w :: vs) := by
  intro headers typed rest hrest
  rw [List.append_assoc, List.cons_append, h.separated hw, h' headers false rest hrest]

private theorem NoCalls.cons (hw : ∀ name, w ≠ .identifier name) (h : NoCalls us) :
    NoCalls (w :: us) :=
  fun headers _ rest hrest => (sourceCalls_cons hw).trans (h headers _ rest hrest)

private theorem noCalls_identifier (name : String) : NoCalls [.identifier name] :=
  fun _ _ _ hrest => sourceCalls_identifier hrest

/-- The name in a declaration is not that of a call. -/
private theorem noCalls_declared {type : Ty} (name : String) (hw : w.type? = some type) :
    NoCalls [w, .identifier name] := by
  intro headers typed rest hrest
  obtain rfl | rfl := Token.type?_eq_some hw <;>
    exact (sourceCalls_cons (by simp)).trans (sourceCalls_identifier hrest)

end Tokens

/-! ### Expressions and lists -/

section Readings

variable {α : Type} {ts : List Located} {c c' : Checker}

/-- **Expressions have no calls.** -/
private theorem noCalls_readsExpr {n : Nat} {e : Expr} (h : ReadsExpr n ts c e c') :
    NoCalls (words ts) := by
  induction h with
  | var => exact noCalls_identifier _
  | int | float => exact fun _ _ _ _ => sourceCalls_cons (by simp)
  | parens _ ih =>
    intro headers typed rest _
    simp only [words, List.map_cons, List.map_append, List.map_nil, List.cons_append,
      List.append_assoc, List.nil_append]
    rw [sourceCalls_cons (by simp), ih.separated rfl]
  | @binary _ _ w _ _ _ _ _ _ _ _ hop _ _ _ ihl ihr =>
    rw [words, List.map_append, List.map_cons]
    refine ihl.join ?_ ihr
    cases w <;> simp_all [Token.separates, Token.operator?]

private theorem noCalls_readsParam {p : Param} (h : ReadsParam ts c p c') : NoCalls (words ts) := by
  cases h with
  | mk htype => exact noCalls_declared _ htype

private theorem noCalls_readsSeparated {item : ReadingOf α} {as : List α}
    (hitem : ∀ ts c a c', item ts c a c' → NoCalls (words ts))
    (h : ReadsSeparated item ts c as c') : NoCalls (words ts) := by
  induction h with
  | one h => exact hitem _ _ _ _ h
  | cons h _ ih =>
    rw [words, List.map_append, List.map_cons]
    exact (hitem _ _ _ _ h).join rfl ih

/-- A list in parentheses, whatever comes behind it. -/
theorem sourceCalls_readsList {item : ReadingOf α} {as : List α}
    (hitem : ∀ ts c a c', item ts c a c' → NoCalls (words ts)) (h : ReadsList item ts c as c')
    (headers : List String) (rest : List Token) :
    sourceCalls headers false (words ts ++ rest) = sourceCalls headers false rest := by
  cases h with
  | nil => exact sourceCalls_cons (by simp)
  | items h =>
    rw [words, List.map_append, List.append_assoc]
    exact (noCalls_readsSeparated hitem h).separated rfl

end Readings

/-! ### Statements -/

namespace Stmt

/-- The calls of the first statement come first. The others are found from the spot behind it. -/
theorem callSitesAll_cons (spot : Spot) (inBlock : Bool) (s : Stmt) (rest : List Stmt) :
    callSitesAll spot none inBlock (s :: rest) =
      s.callSites spot inBlock ++ callSitesAll (spot.after s) none inBlock rest := by
  simp [callSitesAll, Spot.under]

/-- The body of a `for` loop, and the step behind it. -/
theorem callSitesAll_step (spot : Spot) (headers : List (String × List Param)) (inBlock : Bool)
    (body : List Stmt) (step : Stmt) :
    callSitesAll spot (some headers) inBlock (body ++ [step]) =
      callSitesAll spot none inBlock body ++
        step.callSites ((spot.afterAll body).under headers) inBlock := by
  induction body generalizing spot with
  | nil => simp [callSitesAll, Spot.under, Spot.afterAll, registersAll, labelsAll, codeAll]
  | cons s rest ih =>
    have hspot : (spot.after s).afterAll rest = spot.afterAll (s :: rest) := by
      simp [Spot.after, Spot.afterAll, registersAll, labelsAll, codeAll, headersAll, Nat.add_assoc]
    rw [callSitesAll_cons, List.cons_append, callSitesAll, ih, hspot, List.append_assoc]
    simp [Spot.under]

/-- The parts of a `for` loop. The step stands in the source where the loop stands. -/
theorem callSites_for (spot : Spot) (inBlock : Bool) (init step : Stmt) (e : Expr)
    (body : List Stmt) :
    (Stmt.block [init, .loop e (body ++ [step])]).callSites spot inBlock =
      let header := spot.after init
      let inner := header.skip e.registers 2
        ((e.conditionCode header.reg (labelName (header.label + 1))).length + 1)
      init.callSites spot true ++ (callSitesAll inner none false body ++
        step.callSites ((inner.afterAll body).under header.headers) false) := by
  dsimp only
  rw [← callSitesAll_step, callSites, callSitesAll_cons, callSitesAll_cons]
  simp [callSites, callSitesAll]

end Stmt

/-- What the source shows of a call site: the names in the headers in front, and its own. -/
def CallSite.inSource (site : CallSite) : List String × String :=
  (site.spot.headers.map (·.1), site.name)

/-- The function headers in a phrase. -/
@[simp]
def Phrase.headers : Phrase → List (String × List Param)
  | .statement s => s.headers
  | .body ss | .block ss => Stmt.headersAll ss

/-- The calls in a phrase. -/
def Phrase.callSites (spot : Spot) : Phrase → List CallSite
  | .statement s => s.callSites spot false
  | .body ss | .block ss => Stmt.callSitesAll spot none false ss

/-- The tokens show the calls and the headers of the phrase, whatever headers stand in front. -/
def Phrase.ShownBy (p : Phrase) (ws : List Token) : Prop :=
  ∀ (names : List String) (rest : List Token), ∃ calls,
    sourceCalls names false (ws ++ rest) =
      calls ++ sourceCalls (names ++ p.headers.map (·.1)) false rest ∧
    ∀ spot : Spot, spot.headers.map (·.1) = names →
      calls.Perm ((p.callSites spot).map CallSite.inSource)

section Statements

variable {ts : List Located} {c c' : Checker}

/-- A statement without its semicolon, up to a separating token. -/
theorem sourceCalls_readsSimple {s : Stmt} (h : ReadsSimple ts c s c') (names : List String)
    {w : Token} (hw : w.separates = true) (rest : List Token) :
    ∃ calls, sourceCalls names false (words ts ++ w :: rest) =
        calls ++ sourceCalls names false rest ∧
      ∀ (spot : Spot) (inBlock : Bool), spot.headers.map (·.1) = names →
        calls = (s.callSites spot inBlock).map CallSite.inSource := by
  cases h with
  | declare htype => exact ⟨[], (noCalls_declared _ htype).separated hw, fun _ _ _ => rfl⟩
  | @declareAssign _ _ _ _ name _ _ _ _ _ htype init =>
    have hcalls :=
      (noCalls_declared name htype).join (w := .assign) rfl (noCalls_readsExpr init)
    exact ⟨[], hcalls.separated hw, fun _ _ _ => rfl⟩
  | @assign _ _ name _ _ _ _ value =>
    have hcalls := (noCalls_identifier name).join (w := .assign) rfl (noCalls_readsExpr value)
    exact ⟨[], hcalls.separated hw, fun _ _ _ => rfl⟩
  | @call _ _ name _ _ _ _ hargs =>
    have hlist := sourceCalls_readsList (fun _ _ _ _ => noCalls_readsExpr) hargs names (w :: rest)
    refine ⟨[(names, name)], ?_, ?_⟩
    · exact congrArg ((names, name) :: ·) (hlist.trans (sourceCalls_separator hw))
    · rintro spot _ rfl
      rfl

/-- A keyword with a condition in parentheses. -/
theorem sourceCalls_condition {n line opening closing : Nat} {w : Token} {e : Expr}
    (hw : ∀ name, w ≠ .identifier name) (h : ReadsExpr n ts c e c') (headers : List String)
    (bs : List Located) (rest : List Token) :
    sourceCalls headers false (words (⟨w, line⟩ :: ⟨.openParen, opening⟩ ::
        (ts ++ ⟨.closeParen, closing⟩ :: bs)) ++ rest) =
      sourceCalls headers false (words bs ++ rest) := by
  have hcondition : NoCalls (w :: .openParen :: words ts) :=
    ((noCalls_readsExpr h).cons (by simp)).cons hw
  simpa [words] using hcondition.separated (w := .closeParen) rfl

/-- The parts of a `for` loop. -/
theorem sourceCalls_for {line opening semi semi' closing : Nat} (names : List String)
    (is es ps bs : List Located) (rest : List Token) :
    sourceCalls names false (words (⟨.kwFor, line⟩ :: ⟨.openParen, opening⟩ ::
        (is ++ ⟨.semicolon, semi⟩ :: (es ++ ⟨.semicolon, semi'⟩ ::
          (ps ++ ⟨.closeParen, closing⟩ :: bs)))) ++ rest) =
      sourceCalls names false (words is ++ .semicolon ::
        (words es ++ .semicolon :: (words ps ++ .closeParen :: (words bs ++ rest)))) := by
  simp only [words, List.map_cons, List.map_append, List.cons_append, List.append_assoc]
  rfl

/-- The tokens of a phrase show its calls. -/
theorem shownBy_reads {p : Phrase} (h : Reads ts c p c') : p.ShownBy (words ts) := by
  induction h with
  | simple h =>
    intro names rest
    obtain ⟨calls, hcalls, hsites⟩ := sourceCalls_readsSimple h names (w := .semicolon) rfl rest
    refine ⟨calls, ?_, fun spot hspot => .of_eq (hsites spot false hspot)⟩
    simpa [words, headers_of_readsSimple h] using hcalls
  | @function _ _ _ _ name _ ps bs params _ _ _ htype hparams _ ih =>
    intro names rest
    obtain ⟨calls, hcalls, hsites⟩ := ih (names ++ [name]) rest
    refine ⟨calls, ?_, fun spot hspot => hsites _ (by simp [Spot.under, hspot])⟩
    have hlist := sourceCalls_readsList (fun _ _ _ _ => noCalls_readsParam) hparams
      (names ++ [name]) (words bs ++ rest)
    simpa [words, sourceCalls_header htype, Stmt.headers] using hlist.trans hcalls
  | ifThen condition _ ih =>
    intro names rest
    obtain ⟨calls, hcalls, hsites⟩ := ih names rest
    exact ⟨calls, (sourceCalls_condition (by simp) condition _ _ _).trans hcalls,
      fun spot hspot => hsites _ hspot⟩
  | @ifElse _ _ _ _ _ _ bs' _ _ _ _ _ ss _ condition _ _ ih ih' =>
    intro names rest
    obtain ⟨calls, hcalls, hsites⟩ := ih names (.kwElse :: (words bs' ++ rest))
    obtain ⟨calls', hcalls', hsites'⟩ := ih' (names ++ (Phrase.block ss).headers.map (·.1)) rest
    refine ⟨calls ++ calls', ?_, fun spot hspot => ?_⟩
    · rw [sourceCalls_condition (by simp) condition, words, List.map_append, List.map_cons,
        List.append_assoc, List.cons_append, hcalls, sourceCalls_separator rfl, hcalls']
      simp [Stmt.headers]
    · rw [Phrase.callSites, Stmt.callSites, List.map_append]
      refine .append (hsites _ ?_) (hsites' _ ?_)
      · exact hspot
      · simp [Spot.skip, Spot.afterAll, hspot]
  | loop condition _ ih =>
    intro names rest
    obtain ⟨calls, hcalls, hsites⟩ := ih names rest
    exact ⟨calls, (sourceCalls_condition (by simp) condition _ _ _).trans hcalls,
      fun spot hspot => hsites _ hspot⟩
  | @forLoop _ _ _ _ _ _ es ps bs _ _ _ _ _ init _ _ _ hinit condition hstep _ ih =>
    intro names rest
    obtain ⟨callsBody, hbody, hsitesBody⟩ := ih names rest
    obtain ⟨callsStep, hcallsStep, hsitesStep⟩ :=
      sourceCalls_readsSimple hstep names (w := .closeParen) rfl (words bs ++ rest)
    obtain ⟨callsInit, hcallsInit, hsitesInit⟩ :=
      sourceCalls_readsSimple hinit names (w := .semicolon) rfl
        (words es ++ .semicolon :: (words ps ++ .closeParen :: (words bs ++ rest)))
    refine ⟨callsInit ++ (callsStep ++ callsBody), ?_, fun spot hspot => ?_⟩
    · rw [sourceCalls_for, hcallsInit, (noCalls_readsExpr condition).separated rfl, hcallsStep,
        hbody]
      simp [Stmt.headers, Stmt.headersAll, Stmt.headersAll_append, headers_of_readsSimple hinit,
        headers_of_readsSimple hstep]
    · have hheaders : (spot.after init).headers.map (·.1) = names := by
        simp [Spot.after, headers_of_readsSimple hinit, hspot]
      rw [Phrase.callSites, Stmt.callSites_for, List.map_append, List.map_append,
        ← hsitesInit spot true hspot]
      -- the code has the step behind the body
      refine .append_left _ (List.perm_append_comm.trans ?_)
      refine .append (hsitesBody _ ?_) (.of_eq (hsitesStep _ false ?_))
      · exact hheaders
      · exact hheaders
  | ret value =>
    intro names rest
    refine ⟨[], ?_, fun _ _ => .rfl⟩
    have hvalue := (noCalls_readsExpr value).cons (w := .kwReturn) (by simp)
    simpa [words, Stmt.headers] using hvalue.separated (w := .semicolon) rfl
  | nil =>
    intro names rest
    exact ⟨[], by simp [Stmt.headersAll], fun _ _ => .rfl⟩
  | @cons _ us _ _ _ s ss _ _ ih ih' =>
    intro names rest
    obtain ⟨calls, hcalls, hsites⟩ := ih names (words us ++ rest)
    obtain ⟨calls', hcalls', hsites'⟩ := ih' (names ++ s.headers.map (·.1)) rest
    refine ⟨calls ++ calls', ?_, fun spot hspot => ?_⟩
    · rw [words, List.map_append, List.append_assoc, hcalls, Phrase.headers, hcalls']
      simp [Stmt.headersAll]
    · rw [Phrase.callSites, Stmt.callSitesAll_cons, List.map_append]
      exact (hsites _ hspot).append (hsites' _ (by simp [Spot.after, hspot]))
  | block _ ih =>
    intro names rest
    obtain ⟨calls, hcalls, hsites⟩ := ih names (.closeBrace :: rest)
    refine ⟨calls, ?_, fun spot hspot => hsites spot hspot⟩
    rw [sourceCalls_separator rfl] at hcalls
    rw [words, List.map_cons, List.cons_append, sourceCalls_separator rfl, List.map_append,
      List.append_assoc]
    exact hcalls

end Statements

end TinyImp
