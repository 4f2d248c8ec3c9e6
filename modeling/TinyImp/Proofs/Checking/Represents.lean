import TinyImp.Proofs.Checking.WellFormed

/-!
# Symbol tables and contexts

A symbol table **represents** a context if each of its scopes knows the same names as the scope of
the context, with the type of the first declaration, and its functions are those of the latest
headers. Names are then declared, variables have types and functions have parameters according to
the table exactly as they do in the context, and the changes of the table follow the text: a
declaration, a scope that is opened for a block or for the body of a function, and a scope that is
closed.
-/

namespace TinyImp

/-- A scope of the table knows the names that have been declared, each with its first type. -/
def Scope.AgreesWith (scope : Scope) (declarations : List Param) : Prop :=
  ∀ name, (scope.lookup name).map (·.type) =
    (declarations.find? (·.name == name)).map (·.type)

/-- The symbol table represents the context, and no parameters are pending. -/
structure Symbols.Represents (s : Symbols) (Γ : Context) : Prop where
  pending_eq : s.pending = none
  scopes : List.Forall₂ Scope.AgreesWith s.scopes Γ.scopes
  functions : ∀ name, (s.function name).map (·.params) = Γ.headers.reverse.lookup name

/-! ### Questions to a context -/

namespace Context

variable {Γ : Context} {name : String}

private theorem scopes_extend_nil (Γ : Context) (headers : List (String × List Param)) :
    (Γ.extend [] headers).scopes = Γ.scopes := by
  rw [extend, scopes, List.append_nil, scopes]

/-- The first declaration of a name in the innermost scope that declares it. -/
def find? (Γ : Context) (name : String) : Option Param :=
  Γ.scopes.findSome? fun scope => scope.find? (·.name == name)

/-- A name is declared exactly if a declaration of it is found. -/
theorem declares_iff : Γ.Declares name ↔ (Γ.find? name).isSome := by
  simp [Declares, find?, List.findSome?_isSome_iff, List.find?_isSome]

/-- The type of a variable is that of the declaration found first, from the inside out. -/
theorem hasVariable_iff {type : Ty} :
    Γ.HasVariable name type ↔ Γ.find? name = some ⟨name, type⟩ := by
  unfold HasVariable find?
  rw [List.findSome?_eq_some_iff]
  refine exists₃_congr fun inner scope outer => and_congr_right fun _ => ?_
  rw [and_comm, List.find?_eq_some_iff_append]
  simp

/-- What is found for a name has that name. -/
theorem name_of_find? {d : Param} (h : Γ.find? name = some d) : d.name = name := by
  obtain ⟨scope, -, hscope⟩ := List.exists_of_findSome?_eq_some h
  simpa using List.find?_some hscope

private theorem hasFunction_iff {params : List Param} :
    Γ.HasFunction name params ↔ Γ.headers.reverse.lookup name = some params := by
  rw [HasFunction, List.lookup_eq_some_iff]
  constructor
  · rintro ⟨before, after, h, hafter⟩
    refine ⟨after.reverse, before.reverse, by simp [h], fun header hmem => ?_⟩
    exact bne_iff_ne.mpr (hafter header (List.mem_reverse.mp hmem)).symm
  · rintro ⟨after, before, h, hafter⟩
    refine ⟨before.reverse, after.reverse, ?_, fun header hmem => ?_⟩
    · rw [← List.reverse_reverse Γ.headers, h]
      simp
    · exact (bne_iff_ne.mp (hafter header (List.mem_reverse.mp hmem))).symm

end Context

/-! ### Scopes -/

namespace Scope

variable {scope : Scope} {declarations : List Param}

/-- The first declaration of a name counts. -/
theorem AgreesWith.declare (h : scope.AgreesWith declarations) (p : Param) :
    (scope.declare p.name p.type).AgreesWith (declarations ++ [p]) := by
  intro name
  have hname := h name
  rw [List.find?_append]
  unfold Scope.declare
  by_cases hp : name = p.name
  · subst hp
    cases hlookup : scope.lookup p.name with
    | some v =>
      obtain ⟨d, hd, htype⟩ := Option.map_eq_some_iff.mp (hname.symm.trans (by rw [hlookup]; rfl))
      simp [hlookup, hd, htype]
    | none =>
      have hnone := Option.map_eq_none_iff.mp (hname.symm.trans (by rw [hlookup]; rfl))
      simp [hnone]
  · have hlast : [p].find? (·.name == name) = none := by simp [Ne.symm hp]
    rw [hlast, Option.or_none, ← hname]
    split
    · rfl
    · rw [List.lookup_cons, beq_false_of_ne hp]

private theorem AgreesWith.declareAll {scope : Scope} (h : scope.AgreesWith declarations)
    (params : List Param) :
    (params.foldl (fun scope p => scope.declare p.name p.type) scope).AgreesWith
      (declarations ++ params) := by
  induction params generalizing scope declarations with
  | nil => simpa using h
  | cons p rest ih => simpa using ih (h.declare p)

/-- Only the entry of the name is changed, and only in its mark. -/
theorem lookup_markInitialized (scope : Scope) (name other : String) :
    (scope.markInitialized name).lookup other = (scope.lookup other).map fun v =>
      if other = name then { v with initialized := true } else v := by
  induction scope with
  | nil => rfl
  | cons entry rest ih =>
    obtain ⟨key, v⟩ := entry
    change List.lookup other ((key, _) :: Scope.markInitialized rest name) = _
    rw [List.lookup_cons, List.lookup_cons]
    cases hkey : other == key with
    | true =>
      obtain rfl : other = key := eq_of_beq hkey
      rfl
    | false => exact ih

/-- An assignment changes no type. -/
theorem map_type_lookup_markInitialized (scope : Scope) (name other : String) :
    ((scope.markInitialized name).lookup other).map (·.type) =
      (scope.lookup other).map (·.type) := by
  rw [lookup_markInitialized, Option.map_map]
  congr 1
  funext v
  by_cases hother : other = name <;> simp [hother]

/-- Marks do not matter to what a scope declares. -/
theorem AgreesWith.markInitialized (h : scope.AgreesWith declarations) (name : String) :
    (scope.markInitialized name).AgreesWith declarations := fun other =>
  (map_type_lookup_markInitialized scope name other).trans (h other)

end Scope

private theorem forall₂_agreesWith_markInitializedIn {scopes : List Scope} {Δ : List (List Param)}
    (h : List.Forall₂ Scope.AgreesWith scopes Δ) (name : String) :
    List.Forall₂ Scope.AgreesWith (Symbols.markInitializedIn name scopes) Δ := by
  induction h with
  | nil => exact .nil
  | cons hfirst hrest ih =>
    unfold Symbols.markInitializedIn
    split
    · exact .cons (hfirst.markInitialized name) hrest
    · exact .cons hfirst ih

private theorem map_type_findSome?_lookup {scopes : List Scope} {Δ : List (List Param)}
    (h : List.Forall₂ Scope.AgreesWith scopes Δ) (name : String) :
    (scopes.findSome? (·.lookup name)).map (·.type) =
      (Δ.findSome? fun ds => ds.find? (·.name == name)).map (·.type) := by
  induction h with
  | nil => rfl
  | @cons scope ds scopes Δ hfirst _ ih =>
    rw [List.findSome?_cons, List.findSome?_cons]
    have hname := hfirst name
    cases hlookup : scope.lookup name with
    | some v =>
      obtain ⟨d, hd, htype⟩ := Option.map_eq_some_iff.mp (hname.symm.trans (by rw [hlookup]; rfl))
      simp [hd, htype]
    | none =>
      have hnone := Option.map_eq_none_iff.mp (hname.symm.trans (by rw [hlookup]; rfl))
      simpa [hnone] using ih

/-! ### Symbol tables -/

/-- An assignment to an undeclared name is refused. -/
theorem Symbols.assign_of_not_isDeclared {s : Symbols} {name : String}
    (h : ¬ s.isDeclared name = true) : s.assign name = .error (.assignedUndeclared name) := by
  have hinner : ¬ (s.innermost.lookup name).isSome = true := fun hsome =>
    h (List.findSome?_isSome_iff.mpr ⟨s.innermost, List.mem_cons_self, hsome⟩)
  rw [Symbols.assign, if_neg hinner, if_neg h]

/-- No argument is of a wrong type, whatever the number of the first one is. -/
theorem filterMap_argumentType_eq_nil_iff {types : List Ty} {params : List Param} {name : String}
    (hlength : types.length = params.length) (k : Nat) :
    ((List.zip types params).zipIdx k).filterMap (fun ((got, param), i) =>
        if got = param.type then none
        else some (Fault.argumentType name (i + 1) param.type got)) = [] ↔
      types = params.map (·.type) := by
  rw [List.filterMap_eq_nil_iff]
  induction types generalizing params k with
  | nil =>
    obtain rfl : params = [] := List.length_eq_zero_iff.mp hlength.symm
    simp
  | cons type types ih =>
    cases params with
    | nil => cases hlength
    | cons p params =>
      rw [List.zip_cons_cons, List.zipIdx_cons, List.forall_mem_cons,
        ih (Nat.succ.inj hlength) (k + 1)]
      simp

/-- A call is without a fault exactly if the types of its arguments are those of the parameters. -/
theorem Symbols.callFaults_eq_nil_iff {s : Symbols} {name : String} {types : List Ty} :
    s.callFaults name types = [] ↔
      ∃ params, (s.function name).map (·.params) = some params ∧
        types = params.map (·.type) := by
  unfold Symbols.callFaults
  cases s.function name with
  | none => simp
  | some signature =>
    by_cases hlength : types.length = signature.params.length
    · simp [hlength, filterMap_argumentType_eq_nil_iff hlength]
    · have hne : types ≠ signature.params.map (·.type) := by
        rintro rfl
        simp at hlength
      simp [hlength, hne]

namespace Symbols.Represents

variable {s s' : Symbols} {Γ : Context} {name : String}

/-- The empty table represents the context in front of a program. -/
theorem empty : ({} : Symbols).Represents {} :=
  ⟨rfl, .cons (fun _ => rfl) .nil, fun _ => rfl⟩

private theorem map_type_lookup (h : s.Represents Γ) (name : String) :
    (s.lookup name).map (·.type) = (Γ.find? name).map (·.type) :=
  map_type_findSome?_lookup h.scopes name

/-- **The table knows what the context declares.** -/
theorem isDeclared_iff (h : s.Represents Γ) : s.isDeclared name = true ↔ Γ.Declares name := by
  rw [Context.declares_iff, Symbols.isDeclared]
  have hlookup := congrArg Option.isSome (h.map_type_lookup name)
  simp only [Option.isSome_map] at hlookup
  rw [hlookup]

/-- The table finds the type that the context has for a variable. -/
theorem typeOf_eq_ok_iff (h : s.Represents Γ) {type : Ty} :
    s.typeOf name = .ok type ↔ Γ.HasVariable name type := by
  rw [Context.hasVariable_iff, Symbols.typeOf]
  have hlookup := h.map_type_lookup name
  cases hfind : Γ.find? name with
  | none =>
    have hnone : s.lookup name = none := by simpa [hfind] using hlookup
    simp [hnone]
  | some d =>
    obtain ⟨v, hv, htype⟩ : ∃ v, s.lookup name = some v ∧ v.type = d.type := by
      simpa [hfind] using hlookup
    obtain rfl := Context.name_of_find? hfind
    obtain ⟨dname, dtype⟩ := d
    simp [hv, htype]

/-- The table finds the parameters that the context has for a function. -/
theorem function_iff (h : s.Represents Γ) {params : List Param} :
    (s.function name).map (·.params) = some params ↔ Γ.HasFunction name params := by
  rw [Context.hasFunction_iff, h.functions]

/-- A declaration extends the context by one variable. -/
theorem declare (h : s.Represents Γ) (p : Param) :
    (s.declare p.name p.type).Represents (Γ.extend [p] []) := by
  obtain ⟨hinner, houter⟩ := List.forall₂_cons.mp h.scopes
  refine ⟨h.pending_eq, .cons (hinner.declare p) houter, fun name => ?_⟩
  rw [Context.extend, List.append_nil]
  exact h.functions name

/-- An assignment to a declared variable. -/
theorem assign (h : s.Represents Γ) (hdeclared : s.isDeclared name = true) :
    ∃ s', s.assign name = .ok s' ∧ s'.Represents Γ := by
  obtain ⟨hinner, houter⟩ := List.forall₂_cons.mp h.scopes
  rw [Symbols.assign, if_pos hdeclared]
  split
  · exact ⟨_, rfl, h.pending_eq, .cons (hinner.markInitialized name) houter, h.functions⟩
  · exact ⟨_, rfl, h.pending_eq,
      .cons hinner (forall₂_agreesWith_markInitializedIn houter name), h.functions⟩

/-- The scope of a block. -/
theorem openScope (h : s.Represents Γ) : s.openScope.Represents (Γ.enter []) := by
  refine ⟨rfl, .cons ?_ h.scopes, h.functions⟩
  simp only [Symbols.openScope, h.pending_eq]
  exact fun _ => rfl

/-- The scope of the body of a function, which begins with the parameters. -/
theorem openFunction (h : s.Represents Γ) (name : String) (type : Ty) (params : List Param) :
    (s.declareFunction name type params).openScope.Represents
      ((Γ.extend [] [(name, params)]).enter params) := by
  refine ⟨rfl, .cons ?_ ?_, fun other => ?_⟩
  · have hempty : Scope.AgreesWith [] [] := fun _ => rfl
    exact hempty.declareAll params
  · change List.Forall₂ _ s.scopes (Γ.extend [] [(name, params)]).scopes
    rw [Context.scopes_extend_nil]
    exact h.scopes
  · change (List.lookup other ((name, _) :: s.functions)).map _ =
      (Γ.headers ++ [(name, params)]).reverse.lookup other
    rw [List.reverse_append, List.reverse_singleton, List.singleton_append, List.lookup_cons,
      List.lookup_cons]
    cases other == name with
    | true => rfl
    | false => exact h.functions other

/-- The innermost scope is closed; the headers in it remain. -/
theorem closeScope {ds ds' : List Param} {hs : List (String × List Param)}
    (h : s.Represents ((Γ.enter ds).extend ds' hs)) : s.closeScope.Represents (Γ.extend [] hs) := by
  obtain ⟨-, houter⟩ := List.forall₂_cons.mp h.scopes
  unfold Symbols.closeScope
  cases henclosing : s.enclosing with
  | nil =>
    rw [henclosing] at houter
    cases houter
  | cons scope rest =>
    refine ⟨h.pending_eq, ?_, h.functions⟩
    rw [Context.scopes_extend_nil]
    rw [henclosing] at houter
    exact houter

end Symbols.Represents

end TinyImp
