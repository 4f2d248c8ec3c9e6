import TinyImp.Proofs.Checking.Frame

/-!
# The symbol table and its history

A symbol table is what a sequence of operations has made of the empty table. Here the sequence
itself, the **history**, is asked what the table should know. Every scope that is opened is an
*instance* of its own, and what an instance has declared, and in which order, can be read off the
history; so can the instance that a name belonged to when it was assigned to. The questions to the
history mention neither scopes nor entries of the table.

The invariant (`Tracks`) pairs the scopes of the table with the open instances. One operation keeps
it (`Tracks.apply`), so it holds behind every history, and the table answers as its history does
(`table_reflects_history`).
-/

namespace TinyImp.Symbols

/-- An operation on the symbol table. -/
inductive Operation where
  | openScope
  | closeScope
  | declare (name : String) (type : Ty)
  | assign (name : String)
  | declareFunction (name : String) (returnType : Ty) (params : List Param)
  | reset
  deriving DecidableEq

/-- What an operation makes of the table. An assignment that fails leaves it as it is. -/
def apply (s : Symbols) : Operation → Symbols
  | .openScope => s.openScope
  | .closeScope => s.closeScope
  | .declare name type => s.declare name type
  | .assign name => (s.assign name).toOption.getD s
  | .declareFunction name returnType params => s.declareFunction name returnType params
  | .reset => {}

/-- The operations so far, the latest first. -/
abbrev History := List Operation

namespace History

/-- The table behind a history. -/
def table : History → Symbols
  | [] => {}
  | op :: past => (table past).apply op

/-! ### Questions to a history -/

/-- The instances of scopes that are open, innermost first. An instance is known by the number of
operations up to its opening. The last one that is open is never closed but by a reset, which
closes all and opens another. -/
def opened : History → List Nat
  | [] => [0]
  | .openScope :: past => (past.length + 1) :: opened past
  | .closeScope :: past =>
    match opened past with
    | _ :: i :: rest => i :: rest
    | only => only
  | .reset :: past => [past.length + 1]
  | _ :: past => opened past

/-- The parameters with which the next scope would open. -/
def waiting : History → List Param
  | [] => []
  | .openScope :: _ => []
  | .reset :: _ => []
  | .declareFunction _ _ params :: _ => params
  | _ :: past => waiting past

/-- What an instance has declared, in order: the parameters with which it was opened, and the
declarations that were made while it was the innermost one. -/
def declared (i : Nat) : History → List Param
  | [] => []
  | .openScope :: past => declared i past ++ if i = past.length + 1 then waiting past else []
  | .declare name type :: past =>
    declared i past ++ if (opened past).head? = some i then [⟨name, type⟩] else []
  | _ :: past => declared i past

/-- The instance has declared the name. -/
def declares (h : History) (name : String) (i : Nat) : Bool :=
  (declared i h).any (·.name == name)

/-- The innermost open instance that has declared the name. -/
def holder (h : History) (name : String) : Option Nat :=
  (opened h).find? (declares h name)

/-- The name has been assigned to while the instance was the one it belonged to. -/
def assigned (i : Nat) (name : String) : History → Bool
  | [] => false
  | op :: past =>
    assigned i name past || decide (op = .assign name ∧ holder past name = some i)

/-- An operation has taken place, and since then none of those that would undo it. -/
def Stands (h : History) (op : Operation) (undone : Operation → Prop) : Prop :=
  ∃ recent past, h = recent ++ op :: past ∧ ∀ o ∈ recent, ¬ undone o

/-- What an instance knows of a name: its first declaration there, and whether it has been assigned
to. -/
def entry (h : History) (i : Nat) (name : String) : Option Variable :=
  ((declared i h).find? (·.name == name)).map fun p => ⟨p.type, assigned i name h⟩

/-! ### Instances -/

variable {h : History} {i : Nat} {name : String}

/-- An instance was opened some time ago. -/
theorem le_length_of_mem_opened (hi : i ∈ opened h) : i ≤ h.length := by
  induction h with
  | nil => simpa [opened] using hi
  | cons op past ih =>
    have hpast : i ∈ opened past → i ≤ (op :: past).length := fun hi =>
      Nat.le_succ_of_le (ih hi)
    cases op with
    | openScope =>
      obtain rfl | hi := List.mem_cons.mp hi
      · exact Nat.le_refl _
      · exact hpast hi
    | closeScope =>
      rw [opened] at hi
      split at hi
      · rename_i heq
        exact hpast (heq ▸ List.mem_cons_of_mem _ hi)
      · exact hpast hi
    | reset =>
      obtain rfl : i = past.length + 1 := by simpa [opened] using hi
      exact Nat.le_refl _
    | declare | assign | declareFunction => exact hpast hi

/-- No instance is open twice. -/
private theorem nodup_opened (h : History) : (opened h).Nodup := by
  induction h with
  | nil => simp [opened]
  | cons op past ih =>
    cases op with
    | openScope =>
      refine List.nodup_cons.mpr ⟨fun hmem => ?_, ih⟩
      have hle := le_length_of_mem_opened hmem
      omega
    | closeScope =>
      rw [opened]
      split
      · rename_i heq
        exact (heq ▸ ih).of_cons
      · exact ih
    | reset => simp [opened]
    | declare | assign | declareFunction => exact ih

/-- Some instance is always open. -/
theorem opened_ne_nil (h : History) : opened h ≠ [] := by
  induction h with
  | nil => simp [opened]
  | cons op past ih =>
    cases op with
    | openScope | reset => simp [opened]
    | closeScope =>
      rw [opened]
      split
      · simp
      · exact ih
    | declare | assign | declareFunction => exact ih

/-- The instance that holds a name is open. -/
private theorem mem_opened_of_holder (hholder : holder h name = some i) : i ∈ opened h :=
  List.mem_of_find?_eq_some hholder

/-- An instance that will be opened later has declared nothing yet. -/
theorem declared_eq_nil_of_length_lt (hi : h.length < i) : declared i h = [] := by
  induction h with
  | nil => rfl
  | cons op past ih =>
    rw [List.length_cons] at hi
    have hpast := ih (Nat.lt_of_succ_lt hi)
    cases op with
    | openScope =>
      rw [declared, hpast, if_neg (by omega), List.append_nil]
    | declare other type =>
      have hhead : (opened past).head? ≠ some i := fun hhead => by
        have hle := le_length_of_mem_opened (List.mem_of_mem_head? hhead)
        omega
      rw [declared, hpast, if_neg hhead, List.append_nil]
    | closeScope | assign | declareFunction | reset => exact hpast

/-- Nor has it been assigned to. -/
theorem assigned_eq_false_of_length_lt (hi : h.length < i) : assigned i name h = false := by
  induction h with
  | nil => rfl
  | cons op past ih =>
    rw [List.length_cons] at hi
    have hholder : holder past name ≠ some i := fun hholder => by
      have hle := le_length_of_mem_opened (mem_opened_of_holder hholder)
      omega
    simp [assigned, ih (Nat.lt_of_succ_lt hi), hholder]

/-- Declarations are never taken back. -/
theorem declares_cons (op : Operation) (hdeclares : declares h name i = true) :
    declares (op :: h) name i = true := by
  unfold declares at hdeclares ⊢
  cases op with
  | openScope | declare => rw [declared, List.any_append, hdeclares, Bool.true_or]
  | closeScope | assign | declareFunction | reset => exact hdeclares

/-- An instance in which a name has been assigned to has declared it. -/
theorem declares_of_assigned (hassigned : assigned i name h = true) :
    declares h name i = true := by
  induction h with
  | nil => cases hassigned
  | cons op past ih =>
    rw [assigned, Bool.or_eq_true, decide_eq_true_eq] at hassigned
    obtain hpast | ⟨-, hholder⟩ := hassigned
    · exact declares_cons op (ih hpast)
    · exact declares_cons op (List.find?_some hholder)

/-- A name has been assigned to if there was an assignment while the instance held it. -/
private theorem assigned_iff :
    assigned i name h = true ↔ ∃ past, .assign name :: past <:+ h ∧ holder past name = some i := by
  induction h with
  | nil => simp [assigned]
  | cons op h ih =>
    rw [assigned, Bool.or_eq_true, ih, decide_eq_true_eq]
    constructor
    · rintro (⟨past, hsuffix, hholder⟩ | ⟨rfl, hholder⟩)
      · exact ⟨past, hsuffix.trans (List.suffix_cons op h), hholder⟩
      · exact ⟨h, List.suffix_rfl, hholder⟩
    · rintro ⟨past, hsuffix, hholder⟩
      obtain heq | hsuffix := List.suffix_cons_iff.mp hsuffix
      · obtain ⟨rfl, rfl⟩ := List.cons.inj heq
        exact .inr ⟨rfl, hholder⟩
      · exact .inl ⟨past, hsuffix, hholder⟩

/-- The last operation is the one in question, or it does not undo an earlier one. -/
private theorem stands_cons {op o : Operation} {undone : Operation → Prop} :
    Stands (o :: h) op undone ↔ o = op ∨ ¬ undone o ∧ Stands h op undone := by
  constructor
  · rintro ⟨recent, past, heq, hrecent⟩
    cases recent with
    | nil => exact .inl (List.cons.inj heq).1
    | cons o' recent =>
      obtain ⟨rfl, rfl⟩ := List.cons.inj heq
      obtain ⟨hfirst, hrest⟩ := List.forall_mem_cons.mp hrecent
      exact .inr ⟨hfirst, recent, past, rfl, hrest⟩
  · rintro (rfl | ⟨ho, recent, past, rfl, hrecent⟩)
    · exact ⟨[], h, rfl, by simp⟩
    · exact ⟨o :: recent, past, rfl, List.forall_mem_cons.mpr ⟨ho, hrecent⟩⟩

/-! ### What an operation does to the entries -/

/-- An instance has an entry for the names that it declares, and for no others. -/
private theorem isSome_entry : (entry h i name).isSome = declares h name i := by
  rw [entry, Option.isSome_map, List.isSome_find?, declares]

/-- An entry has the type of the first declaration, and is marked if an assignment has come to it.
-/
private theorem entry_eq_some_iff {v : Variable} :
    entry h i name = some v ↔ ∃ p, (declared i h).find? (·.name == name) = some p ∧
      v.type = p.type ∧
      (v.initialized = true ↔ ∃ past, .assign name :: past <:+ h ∧ holder past name = some i) := by
  rw [entry, Option.map_eq_some_iff, ← assigned_iff]
  refine exists_congr fun p => and_congr_right fun _ => ?_
  constructor
  · rintro rfl
    exact ⟨rfl, Iff.rfl⟩
  · rintro ⟨htype, hflag⟩
    obtain ⟨type, initialized⟩ := v
    rw [← Bool.eq_iff_iff] at hflag
    exact congrArg₂ Variable.mk htype.symm hflag.symm

/-- The instance that holds a name has an entry for it. -/
theorem isSome_bind_holder_entry :
    ((holder h name).bind fun i => entry h i name).isSome = (holder h name).isSome := by
  cases hholder : holder h name with
  | none => rfl
  | some i =>
    change (entry h i name).isSome = true
    rw [isSome_entry]
    exact List.find?_some hholder

/-- The entries of an instance change only when it declares or a name is assigned to. -/
theorem entry_cons_of_declared_eq {op : Operation} (hdeclared : declared i (op :: h) = declared i h)
    (hop : ∀ other, op ≠ .assign other) : entry (op :: h) i name = entry h i name := by
  simp [entry, hdeclared, assigned, hop]

/-- The first declaration of a name stays; another one is new, and not assigned to yet. -/
theorem entry_declare (hi : (opened h).head? = some i) (other : String) (type : Ty) :
    entry (.declare other type :: h) i name =
      (entry h i name).or (if name = other then some { type } else none) := by
  have hflag : assigned i name (.declare other type :: h) = assigned i name h := by
    simp [assigned]
  rw [entry, entry, hflag, declared, if_pos hi, List.find?_append]
  cases hfind : (declared i h).find? (·.name == name) with
  | some p => rfl
  | none =>
    -- nothing has been assigned to a name that the instance has not declared
    have hassigned : assigned i name h = false := by
      by_contra hassigned
      have hdeclares := declares_of_assigned (Bool.not_eq_false _ ▸ hassigned)
      rw [← isSome_entry, entry, hfind] at hdeclares
      cases hdeclares
    by_cases hname : name = other
    · subst hname
      simp [hassigned]
    · simp [hname, Ne.symm hname]

/-- A new instance knows the parameters that have been waiting for it. -/
theorem entry_openScope_length :
    entry (.openScope :: h) (h.length + 1) name =
      ((waiting h).find? (·.name == name)).map fun p => { type := p.type } := by
  have hassigned : assigned (h.length + 1) name (.openScope :: h) = false := by
    simp [assigned, assigned_eq_false_of_length_lt (Nat.lt_succ_self _)]
  rw [entry, hassigned, declared, declared_eq_nil_of_length_lt (Nat.lt_succ_self _), if_pos rfl,
    List.nil_append]

/-- An assignment sets the flag of the name in the instance that it belongs to. -/
theorem entry_assign (other : String) :
    entry (.assign other :: h) i name = (entry h i name).map fun v =>
      if name = other ∧ holder h other = some i then { v with initialized := true } else v := by
  have hdeclared : declared i (.assign other :: h) = declared i h := rfl
  rw [entry, entry, hdeclared, Option.map_map]
  congr 1
  funext p
  by_cases hset : name = other ∧ holder h other = some i
  · obtain ⟨rfl, hholder⟩ := hset
    simp [assigned, hholder]
  · have hflag : assigned i name (.assign other :: h) = assigned i name h := by
      rw [assigned, decide_eq_false, Bool.or_false]
      rintro ⟨heq, hholder⟩
      obtain rfl : other = name := by simpa using heq
      exact hset ⟨rfl, hholder⟩
    simp [hflag, hset]

end History

/-! ### One operation -/

open History

variable {s : Symbols} {h : History}

/-- A scope of the table knows what the instance does. -/
def Shows (h : History) (i : Nat) (scope : Scope) : Prop :=
  ∀ name, scope.lookup name = entry h i name

/-- The scopes of the table are the open instances, and the pending parameters are those that
wait. -/
structure Tracks (s : Symbols) (h : History) : Prop where
  scopes : List.Forall₂ (Shows h) (opened h) s.scopes
  pending : s.pending.getD [] = waiting h

/-- An operation that changes no entry of the instances leaves the scopes showing them. -/
private theorem forall₂_shows_cons {op : Operation} {is : List Nat} {scopes : List Scope}
    (hentry : ∀ i ∈ is, ∀ name, entry (op :: h) i name = entry h i name)
    (hshows : List.Forall₂ (Shows h) is scopes) : List.Forall₂ (Shows (op :: h)) is scopes :=
  ((List.forall₂_and_left _ _).mpr ⟨hentry, hshows⟩).imp fun _ _ h name =>
    (h.2 name).trans (h.1 name).symm

/-- Of several parameters with one name the first counts, and what was declared before counts more.
-/
private theorem lookup_foldl_declare (scope : Scope) (params : List Param) (name : String) :
    (params.foldl (fun scope p => scope.declare p.name p.type) scope).lookup name =
      (scope.lookup name).or
        ((params.find? (·.name == name)).map fun p => { type := p.type }) := by
  induction params generalizing scope with
  | nil => simp
  | cons p rest ih =>
    rw [List.foldl_cons, ih, Scope.lookup_declare, Option.or_assoc, List.find?_cons]
    by_cases hname : name = p.name
    · simp [hname]
    · have hne : (p.name == name) = false := beq_false_of_ne (Ne.symm hname)
      simp [hname, hne]

/-- Nothing is marked if no scope declares the name. -/
theorem markInitializedIn_eq_self {scopes : List Scope} {name : String}
    (hnone : scopes.findSome? (·.lookup name) = none) : markInitializedIn name scopes = scopes := by
  induction scopes with
  | nil => rfl
  | cons scope rest ih =>
    obtain ⟨hfirst, hrest⟩ := List.forall_mem_cons.mp (List.findSome?_eq_none_iff.mp hnone)
    unfold markInitializedIn
    rw [hfirst, Option.isSome_none, if_neg Bool.false_ne_true,
      ih (List.findSome?_eq_none_iff.mpr hrest)]

/-- Otherwise the innermost scope that declares the name is marked, and the others are left
alone. -/
theorem markInitializedIn_eq {scopes : List Scope} {name : String} {v : Variable}
    (hsome : scopes.findSome? (·.lookup name) = some v) :
    ∃ inner scope outer, scopes = inner ++ scope :: outer ∧
      (∀ other ∈ inner, other.lookup name = none) ∧ scope.lookup name = some v ∧
      markInitializedIn name scopes = inner ++ scope.markInitialized name :: outer := by
  induction scopes with
  | nil => cases hsome
  | cons scope rest ih =>
    rw [List.findSome?_cons] at hsome
    unfold markInitializedIn
    cases hfirst : scope.lookup name with
    | some w =>
      obtain rfl : w = v := by simpa [hfirst] using hsome
      exact ⟨[], scope, rest, rfl, by simp, hfirst, rfl⟩
    | none =>
      rw [hfirst] at hsome
      obtain ⟨inner, found, outer, rfl, hinner, hlookup, hmark⟩ := ih hsome
      refine ⟨scope :: inner, found, outer, rfl, ?_, hlookup, ?_⟩
      · exact List.forall_mem_cons.mpr ⟨hfirst, hinner⟩
      · rw [Option.isSome_none, if_neg Bool.false_ne_true, hmark]
        rfl

/-- An assignment to a declared variable touches the scopes only. -/
theorem assign_of_isDeclared {name : String} (hdeclared : s.isDeclared name = true) :
    ∃ s', s.assign name = .ok s' ∧ s'.scopes = markInitializedIn name s.scopes ∧
      s'.functions = s.functions ∧ s'.pending = s.pending ∧ s'.inParamScope = s.inParamScope := by
  unfold assign
  by_cases hinner : (s.innermost.lookup name).isSome = true
  · rw [if_pos hinner]
    refine ⟨_, rfl, ?_, rfl, rfl, rfl⟩
    rw [scopes, scopes, markInitializedIn, if_pos hinner]
  · rw [if_neg hinner, if_pos hdeclared]
    refine ⟨_, rfl, ?_, rfl, rfl, rfl⟩
    rw [scopes, scopes, markInitializedIn, if_neg hinner]

/-- Whether it succeeds or not, an assignment marks the first scope that declares the name. -/
theorem apply_assign (s : Symbols) (name : String) :
    (s.apply (.assign name)).scopes = markInitializedIn name s.scopes ∧
      (s.apply (.assign name)).functions = s.functions ∧
      (s.apply (.assign name)).pending = s.pending := by
  by_cases hdeclared : s.isDeclared name = true
  · obtain ⟨s', hs', hscopes, hfunctions, hpending, -⟩ := assign_of_isDeclared hdeclared
    simp only [apply, hs', Except.toOption, Option.getD_some]
    exact ⟨hscopes, hfunctions, hpending⟩
  · have hnone : s.lookup name = none := by simpa [isDeclared] using hdeclared
    simp only [apply, assign_of_not_isDeclared hdeclared, Except.toOption, Option.getD_none]
    exact ⟨(markInitializedIn_eq_self hnone).symm, trivial, trivial⟩

/-- Marking the first scope that declares a name sets the flag in the first instance that does. -/
theorem forall₂_shows_markInitializedIn {is : List Nat} {scopes : List Scope} (name : String)
    (hnodup : is.Nodup) (hshows : List.Forall₂ (Shows h) is scopes) :
    List.Forall₂ (fun i scope => ∀ other, scope.lookup other = (entry h i other).map fun v =>
        if other = name ∧ is.find? (declares h name) = some i then { v with initialized := true }
        else v)
      is (markInitializedIn name scopes) := by
  induction hshows with
  | nil => exact .nil
  | @cons i scope is scopes hshow hrest ih =>
    obtain ⟨hnot, hnodup⟩ := List.nodup_cons.mp hnodup
    have hdeclares : (scope.lookup name).isSome = declares h name i := by
      rw [hshow name, isSome_entry]
    unfold markInitializedIn
    rw [hdeclares]
    cases hi : declares h name i with
    | true =>
      rw [if_pos rfl, List.find?_cons_of_pos hi]
      refine .cons (fun other => ?_) ?_
      · simp [Scope.lookup_markInitialized, hshow other]
      · -- no other instance is the first one
        have hne : ∀ j ∈ is, i ≠ j := fun j hj heq => hnot (heq ▸ hj)
        refine ((List.forall₂_and_left _ _).mpr ⟨hne, hrest⟩).imp fun j scope h other => ?_
        simp [h.2 other, h.1]
    | false =>
      rw [if_neg Bool.false_ne_true, List.find?_cons_of_neg (by simp [hi])]
      refine .cons (fun other => ?_) (ih hnodup)
      have hfind : is.find? (declares h name) ≠ some i := fun hfind =>
        hnot (List.mem_of_find?_eq_some hfind)
      simp [hshow other, hfind]

private theorem closeScope_eq (s : Symbols) :
    s.closeScope.functions = s.functions ∧ s.closeScope.pending = s.pending := by
  unfold closeScope
  split
  · exact ⟨rfl, rfl⟩
  · exact ⟨rfl, rfl⟩

/-- **One operation** keeps scopes and instances together. -/
theorem Tracks.apply (hs : s.Tracks h) (op : Operation) : (s.apply op).Tracks (op :: h) := by
  cases op with
  | openScope =>
    -- the new instance has a number of its own, so that the others keep their entries
    refine ⟨.cons (fun name => ?_) (forall₂_shows_cons (fun i hi name => ?_) hs.scopes), rfl⟩
    · rw [entry_openScope_length, ← hs.pending]
      exact lookup_foldl_declare [] _ name
    · have hle := le_length_of_mem_opened hi
      refine entry_cons_of_declared_eq ?_ (by simp)
      rw [declared, if_neg (by omega), List.append_nil]
  | closeScope =>
    have hshows : List.Forall₂ (Shows (.closeScope :: h)) (opened h) s.scopes :=
      forall₂_shows_cons (fun i _ name => entry_cons_of_declared_eq rfl (by simp)) hs.scopes
    constructor
    · change List.Forall₂ _ (opened (.closeScope :: h)) s.closeScope.scopes
      unfold closeScope
      rw [opened]
      rw [Symbols.scopes] at hshows
      generalize opened h = is, s.enclosing = outer at hshows
      -- the last instance stays open, as the last scope does
      cases hshows with
      | cons hfirst hrest =>
        cases hrest with
        | nil => exact .cons hfirst .nil
        | cons hnext hrest => exact .cons hnext hrest
    · exact (congrArg (·.getD []) s.closeScope_eq.2).trans hs.pending
  | declare name type =>
    obtain ⟨i, is, hopened⟩ := List.exists_cons_of_ne_nil (opened_ne_nil h)
    have hhead : (opened h).head? = some i := by rw [hopened, List.head?_cons]
    have hnodup := nodup_opened h
    have hscopes := hs.scopes
    rw [hopened] at hnodup hscopes
    obtain ⟨hfirst, hrest⟩ := List.forall₂_cons.mp hscopes
    refine ⟨?_, hs.pending⟩
    change List.Forall₂ _ (opened h) (s.innermost.declare name type :: s.enclosing)
    rw [hopened]
    refine .cons (fun other => ?_) (forall₂_shows_cons (fun j hj other => ?_) hrest)
    · rw [entry_declare hhead, Scope.lookup_declare, hfirst other]
    · refine entry_cons_of_declared_eq ?_ (by simp)
      have hne : i ≠ j := fun heq => (List.nodup_cons.mp hnodup).1 (heq ▸ hj)
      rw [declared, hhead, if_neg (by simpa using hne), List.append_nil]
  | assign name =>
    -- the scope that is marked belongs to the instance that holds the name
    obtain ⟨hscopes, -, hpending⟩ := s.apply_assign name
    refine ⟨?_, by rw [hpending]; exact hs.pending⟩
    rw [hscopes]
    refine (forall₂_shows_markInitializedIn name (nodup_opened h) hs.scopes).imp
      fun i scope hscope other => ?_
    rw [hscope other, entry_assign, holder]
  | declareFunction name type params =>
    exact ⟨forall₂_shows_cons (fun i _ name => entry_cons_of_declared_eq rfl (by simp)) hs.scopes,
      rfl⟩
  | reset =>
    refine ⟨.cons (fun name => ?_) .nil, rfl⟩
    have hdeclared : declared (h.length + 1) h = [] :=
      declared_eq_nil_of_length_lt (Nat.lt_succ_self _)
    change none = Option.map _ (List.find? _ (declared (h.length + 1) h))
    rw [hdeclared]
    rfl

/-- **The whole history.** -/
theorem tracks_table (h : History) : (table h).Tracks h := by
  induction h with
  | nil => exact ⟨.cons (fun _ => rfl) .nil, rfl⟩
  | cons op past ih => exact ih.apply op

/-! ### Answers of the table -/

/-- The variable that a name stands for is the entry of the instance that holds it. -/
theorem Tracks.lookup_eq (hs : s.Tracks h) (name : String) :
    s.lookup name = (holder h name).bind fun i => entry h i name := by
  have hscopes : ∀ {is : List Nat} {scopes : List Scope}, List.Forall₂ (Shows h) is scopes →
      scopes.findSome? (·.lookup name) =
        (is.find? (declares h name)).bind fun i => entry h i name := by
    intro is scopes hshows
    induction hshows with
    | nil => rfl
    | @cons i scope is scopes hshow _ ih =>
      rw [List.findSome?_cons, hshow name, List.find?_cons, ← isSome_entry]
      cases hentry : entry h i name with
      | some v => simp [hentry]
      | none => simpa using ih
  exact hscopes hs.scopes

/-- A function has the signature of its latest declaration since the last reset. -/
theorem function_table_iff {f : String} {signature : Signature} :
    (table h).function f = some signature ↔
      Stands h (.declareFunction f signature.returnType signature.params) fun o =>
        o = .reset ∨ ∃ type params, o = .declareFunction f type params := by
  induction h with
  | nil => simp [table, function, Stands]
  | cons op past ih =>
    rw [stands_cons, ← ih, table]
    cases op with
    | declareFunction g type params =>
      change List.lookup f ((g, ⟨type, params⟩) :: (table past).functions) = some signature ↔ _
      rw [List.lookup_cons]
      by_cases hname : f = g
      · subst hname
        cases signature
        simp
      · have hne : (f == g) = false := beq_false_of_ne hname
        simp [hne, Ne.symm hname, function]
    | reset => simp [apply, function]
    | openScope => simp [apply, function, Symbols.openScope]
    | closeScope => simp [apply, function, (table past).closeScope_eq.1]
    | declare name type => simp [apply, function, Symbols.declare]
    | assign name => simp [function, ((table past).apply_assign name).2.1]

/-- Parameters are pending from the declaration of a function to the next scope. -/
theorem hasPending_table_iff :
    (table h).hasPending = true ↔ ∃ f type params,
      Stands h (.declareFunction f type params) fun o => o = .openScope ∨ o = .reset := by
  induction h with
  | nil => simp [table, hasPending, Stands]
  | cons op past ih =>
    simp only [stands_cons]
    rw [table]
    cases op with
    | declareFunction g type params =>
      refine iff_of_true rfl ⟨g, type, params, .inl rfl⟩
    | openScope => simp [apply, hasPending, Symbols.openScope]
    | reset => simp [apply, hasPending]
    | closeScope => simpa [apply, hasPending, (table past).closeScope_eq.2] using ih
    | declare name type => simpa [apply, hasPending, Symbols.declare] using ih
    | assign name => simpa [hasPending, ((table past).apply_assign name).2.2] using ih

/-- The second table is the first one but for one flag: the variable that the name stands for is
initialized. -/
def Marks (s : Symbols) (name : String) (s' : Symbols) : Prop :=
  ∃ inner scope scope' outer v,
    s.scopes = inner ++ scope :: outer ∧ s'.scopes = inner ++ scope' :: outer ∧
      (∀ other ∈ inner, other.lookup name = none) ∧ scope.lookup name = some v ∧
      (∀ other, scope'.lookup other =
        if other = name then some { v with initialized := true } else scope.lookup other) ∧
      s'.functions = s.functions ∧ s'.pending = s.pending ∧ s'.inParamScope = s.inParamScope

/-- An assignment to a declared variable succeeds and marks it. -/
private theorem exists_assign_eq_ok {name : String} {v : Variable}
    (hlookup : s.lookup name = some v) :
    ∃ s', s.assign name = .ok s' ∧ s.Marks name s' := by
  have hdeclared : s.isDeclared name = true := by rw [isDeclared, hlookup, Option.isSome_some]
  obtain ⟨s', hs', hscopes', hrest⟩ := assign_of_isDeclared hdeclared
  obtain ⟨inner, scope, outer, hscopes, hinner, hscope, hmark⟩ := markInitializedIn_eq hlookup
  refine ⟨s', hs', inner, scope, scope.markInitialized name, outer, v, hscopes,
    hscopes'.trans hmark, hinner, hscope, fun other => ?_, hrest⟩
  rw [Scope.lookup_markInitialized]
  by_cases hother : other = name
  · simp [hother, hscope]
  · simp [hother]

/-- **A table that answers as its history does.** -/
structure Reflects (s : Symbols) (h : History) : Prop where
  scopes_ne_nil : s.scopes ≠ []
  /-- The open scopes are the instances that are open. -/
  depth_eq : s.depth = (opened h).length
  /-- A name stands for a variable if an open instance has declared it. -/
  isSome_lookup_iff (name : String) :
    (s.lookup name).isSome = true ↔ ∃ i ∈ opened h, ∃ p ∈ declared i h, p.name = name
  /-- The variable has the type of the first declaration in the innermost such instance. It is
  initialized if it has been assigned to while that instance held the name. -/
  lookup_eq_some_iff (name : String) (v : Variable) :
    s.lookup name = some v ↔ ∃ i p, holder h name = some i ∧
      (declared i h).find? (·.name == name) = some p ∧ v.type = p.type ∧
      (v.initialized = true ↔ ∃ past, .assign name :: past <:+ h ∧ holder past name = some i)
  /-- An assignment to anything else fails and leaves the table as it is. -/
  assign_undeclared (name : String) (hlookup : s.lookup name = none) :
    s.assign name = .error (.assignedUndeclared name) ∧ s.apply (.assign name) = s
  /-- An assignment to a variable changes its flag and nothing else. -/
  assign_declared (name : String) (v : Variable) (hlookup : s.lookup name = some v) :
    s.assign name = .ok (s.apply (.assign name)) ∧ s.Marks name (s.apply (.assign name))
  /-- A function has the signature of its latest declaration since the last reset. -/
  function_iff (f : String) (signature : Signature) :
    s.function f = some signature ↔
      Stands h (.declareFunction f signature.returnType signature.params) fun o =>
        o = .reset ∨ ∃ type params, o = .declareFunction f type params
  /-- Parameters are pending if a function has been declared since the last scope was opened and
  since the last reset. -/
  hasPending_iff : s.hasPending = true ↔ ∃ f type params,
    Stands h (.declareFunction f type params) fun o => o = .openScope ∨ o = .reset

/-- **The table refines its history.** Whatever has been done to the empty table, it answers as the
operations say. -/
theorem table_reflects_history (h : History) : (table h).Reflects h := by
  have hs := tracks_table h
  have hlookup := hs.lookup_eq
  refine
    { scopes_ne_nil := List.cons_ne_nil _ _
      depth_eq := hs.scopes.length_eq.symm
      isSome_lookup_iff := fun name => ?_
      lookup_eq_some_iff := fun name v => ?_
      assign_undeclared := fun name hnone => ?_
      assign_declared := fun name v hsome => ?_
      function_iff := fun _ _ => function_table_iff
      hasPending_iff := hasPending_table_iff }
  · rw [hlookup name, isSome_bind_holder_entry]
    simp [holder, List.find?_isSome, declares]
  · rw [hlookup name, Option.bind_eq_some_iff]
    refine exists_congr fun i => ?_
    rw [entry_eq_some_iff, exists_and_left]
  · have hdeclared : ¬ (table h).isDeclared name = true := by simp [isDeclared, hnone]
    have herror := assign_of_not_isDeclared hdeclared
    exact ⟨herror, by simp [apply, herror, Except.toOption]⟩
  · obtain ⟨s', hs', hmarks⟩ := exists_assign_eq_ok hsome
    have happly : (table h).apply (.assign name) = s' := by simp [apply, hs', Except.toOption]
    rw [happly]
    exact ⟨hs', hmarks⟩

-- the parameter shadows the variable, its first type counts, and it is the one assigned to
example :
    let h : History := [.assign "x", .openScope,
      .declareFunction "f" .int [⟨"x", .float⟩, ⟨"x", .int⟩], .declare "x" .int]
    opened h = [3, 0] ∧ holder h "x" = some 3 ∧ (table h).lookup "x" = some ⟨.float, true⟩ := by
  decide

end TinyImp.Symbols
