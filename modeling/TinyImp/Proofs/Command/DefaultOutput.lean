import TinyImp.Proofs.Command.Running

/-!
# The default output path

Without an output path, the listing goes to the path of the input with another extension. The
question is when this is the input itself. A path is taken apart into directories and a name
(`Path.ofParts`), and the extension changes the name alone (`Path.toList_withExtension`). So it is
the input itself if the input has that extension already, and in a file system that tells names
apart it is so in no other case (`FileSystem.place?_withExtension_eq_iff`). Where names differ in
case only, or where there are links, two names can be one file. On the disk in memory they never are
(`Disk.tellsNamesApart`).

**A run without an output path leaves its input as it is, unless its default output path leads to
the input** (`Arguments.input_kept_or_replaced`).
-/

namespace TinyImp

namespace Path

/-! ### Directories and a name -/

/-- The text of a path that goes through some directories to a name. -/
def ofParts (before : List (List Char)) (name : List Char) : List Char :=
  before.flatMap (· ++ ['/']) ++ name

/-- A path is split at its slashes. -/
private theorem splitSlash_eq_splitOn (path : List Char) : splitSlash path = path.splitOn '/' := by
  induction path with
  | nil => rfl
  | cons c rest ih =>
    rw [List.splitOn_cons_eq_if_modifyHead, ← ih, splitSlash]
    by_cases hc : c = '/'
    · simp [hc]
    · rw [if_neg hc, if_neg (by simpa using hc)]
      cases hparts : splitSlash rest with
      | nil => exact absurd hparts (splitSlash_ne_nil rest)
      | cons part parts => rfl

/-- A path is cut at its slashes into the directories and the name. -/
theorem splitSlash_ofParts {before : List (List Char)} {name : List Char}
    (hparts : ∀ part ∈ before ++ [name], '/' ∉ part) :
    splitSlash (ofParts before name) = before ++ [name] := by
  rw [splitSlash_eq_splitOn]
  induction before with
  | nil => simpa [ofParts] using List.splitOn_eq_singleton (hparts name (by simp))
  | cons part before ih =>
    obtain ⟨hpart, hparts⟩ := List.forall_mem_cons.mp hparts
    have hcons : ofParts (part :: before) name = part ++ '/' :: ofParts before name := by
      simp [ofParts]
    rw [hcons, List.splitOn_append_cons_self_of_not_mem hpart, ih hparts, List.cons_append]

private theorem joinSlash_append_singleton (before : List (List Char)) (name : List Char) :
    joinSlash (before ++ [name]) = ofParts before name := by
  induction before with
  | nil => rfl
  | cons part before ih =>
    have hne : before ++ [name] ≠ [] := by simp
    rw [List.cons_append, joinSlash, ih]
    · simp [ofParts]
    · exact hne

private theorem slash_notMem_of_mem_splitSlash {path : List Char} :
    ∀ part ∈ splitSlash path, '/' ∉ part := by
  induction path with
  | nil => simp [splitSlash]
  | cons c rest ih =>
    rw [splitSlash]
    split
    · exact List.forall_mem_cons.mpr ⟨List.not_mem_nil, ih⟩
    next hc =>
    split
    · simpa using Ne.symm hc
    · next part parts hparts =>
      rw [hparts] at ih
      obtain ⟨hpart, hrest⟩ := List.forall_mem_cons.mp ih
      exact List.forall_mem_cons.mpr ⟨List.not_mem_cons_of_ne_of_not_mem (Ne.symm hc) hpart, hrest⟩

/-- Every path consists of directories and a name. -/
theorem exists_eq_ofParts (path : List Char) :
    ∃ before name, path = ofParts before name ∧ ∀ part ∈ before ++ [name], '/' ∉ part := by
  obtain ⟨before, name, hparts⟩ := (splitSlash path).eq_nil_or_concat.resolve_left
    (splitSlash_ne_nil path)
  rw [List.concat_eq_append] at hparts
  refine ⟨before, name, ?_, ?_⟩
  · rw [← joinSlash_append_singleton, ← hparts, joinSlash_splitSlash]
  · rw [← hparts]
    exact slash_notMem_of_mem_splitSlash

/-- What stands at the end of a path and has no slash stands at the end of its name. -/
theorem suffix_name_of_suffix {tail name : List Char} {before : List (List Char)}
    (hparts : ∀ part ∈ before ++ [name], '/' ∉ part) (htail : '/' ∉ tail)
    (h : tail <:+ ofParts before name) : tail <:+ name := by
  obtain ⟨front, hfront⟩ := h
  obtain ⟨before', base, rfl, hparts'⟩ := exists_eq_ofParts front
  have happend : ofParts before' base ++ tail = ofParts before' (base ++ tail) := by
    simp [ofParts]
  have hsplit := congrArg splitSlash (happend.symm.trans hfront)
  rw [splitSlash_ofParts hparts, splitSlash_ofParts] at hsplit
  · exact ⟨base, (List.append_singleton_inj.mp hsplit).2⟩
  · obtain ⟨hbefore, hbase⟩ := List.forall_mem_append.mp hparts'
    refine List.forall_mem_append.mpr ⟨hbefore, List.forall_mem_singleton.mpr fun hslash => ?_⟩
    exact (List.mem_append.mp hslash).elim (hbase base (List.mem_singleton_self base)) htail

/-! ### Extensions -/

/-- The text can stand as an extension behind the last dot of a name. -/
structure IsExtension (extension : String) : Prop where
  nonempty : extension.toList ≠ []
  slash_notMem : '/' ∉ extension.toList
  dot_notMem : '.' ∉ extension.toList

private theorem isExtension_asm : IsExtension "asm" :=
  ⟨by decide, by decide, by decide⟩

private theorem stem_ne_nil {name : List Char} (h : name ≠ []) : stem name ≠ [] := by
  unfold stem
  split
  · exact h
  · exact h
  · next before hbefore _ => exact fun hnil => hbefore (List.reverse_eq_nil_iff.mp hnil)

private theorem mem_of_mem_stem {name : List Char} {c : Char} (h : c ∈ stem name) : c ∈ name := by
  unfold stem at h
  split at h
  · exact h
  · exact h
  · next before _ hdrop =>
    have hmem : c ∈ name.reverse.dropWhile (· ≠ '.') := by
      rw [hdrop]
      exact List.mem_cons_of_mem _ (List.mem_reverse.mp h)
    exact List.mem_reverse.mp ((List.dropWhile_suffix _).subset hmem)

/-- The stem ends at the last dot. -/
private theorem stem_append {base extension : List Char} (hbase : base ≠ [])
    (hdot : '.' ∉ extension) :
    stem (base ++ '.' :: extension) = base := by
  have hextension : ∀ c ∈ extension.reverse, (decide (c ≠ '.')) = true := by
    intro c hc
    refine decide_eq_true fun heq => hdot ?_
    rw [← heq]
    exact List.mem_reverse.mp hc
  have hdrop : (base ++ '.' :: extension).reverse.dropWhile (· ≠ '.') = '.' :: base.reverse := by
    rw [List.reverse_append, List.reverse_cons, List.append_assoc,
      List.dropWhile_append_of_pos hextension]
    rfl
  unfold stem
  rw [hdrop]
  split
  · next h => cases h
  · next h =>
    rw [List.cons.injEq, List.reverse_eq_nil_iff] at h
    exact absurd h.2 hbase
  · next h =>
    rw [← (List.cons.inj h).2, List.reverse_reverse]

/-- Putting an extension does not change a name exactly if the name has it already. -/
theorem stem_append_eq_self_iff {name extension : List Char} (hname : name ≠ [])
    (hdot : '.' ∉ extension) :
    stem name ++ '.' :: extension = name ↔ ∃ base ≠ [], name = base ++ '.' :: extension := by
  constructor
  · intro h
    exact ⟨stem name, stem_ne_nil hname, h.symm⟩
  · rintro ⟨base, hbase, rfl⟩
    rw [stem_append hbase hdot]

private theorem ne_nil_of_isName {name : List Char} (h : isName name = true) : name ≠ [] := by
  rintro rfl
  cases h

/-- A name with an extension is no `.` and no `..`. -/
private theorem isName_append {base extension : List Char} (hbase : base ≠ [])
    (h : extension ≠ []) :
    isName (base ++ '.' :: extension) = true := by
  obtain ⟨c, base, rfl⟩ := List.exists_cons_of_ne_nil hbase
  obtain ⟨e, extension, rfl⟩ := List.exists_cons_of_ne_nil h
  cases base <;> simp [isName, isIdle]

/-- Nothing is trimmed behind a name. -/
private theorem trimEnd_append_name {before : List (List Char)} {name : List Char}
    (hname : isName name = true) : trimEnd (before ++ [name]) = before ++ [name] := by
  have hidle : isIdle name = false := by
    rw [isName, Bool.and_eq_true, Bool.not_eq_true'] at hname
    exact hname.1
  cases before with
  | nil => rfl
  | cons first before => simp [trimEnd, hidle]

/-- Another extension changes the name, and not the directories in front of it. -/
theorem toList_withExtension {path extension : String} {before : List (List Char)}
    {name : List Char} (hpath : path.toList = ofParts before name)
    (hparts : ∀ part ∈ before ++ [name], '/' ∉ part) (hname : isName name = true) :
    (withExtension path extension).toList =
      ofParts before (stem name ++ '.' :: extension.toList) := by
  simp only [withExtension, hpath, splitSlash_ofParts hparts, trimEnd_append_name hname,
    List.getLast?_concat, hname, if_true, String.toList_ofList, List.dropLast_concat,
    joinSlash_append_singleton]

/-- A path that has an extension already stays as it is. -/
theorem withExtension_eq_self {path extension : String} (h : IsExtension extension) {c : Char}
    (hc : c ≠ '/') (hpath : c :: '.' :: extension.toList <:+ path.toList) :
    withExtension path extension = path := by
  obtain ⟨before, name, hofParts, hparts⟩ := exists_eq_ofParts path.toList
  have htail : '/' ∉ c :: '.' :: extension.toList := by
    simp [h.slash_notMem, hc.symm]
  rw [hofParts] at hpath
  obtain ⟨base, hname⟩ := suffix_name_of_suffix hparts htail hpath
  rw [List.append_cons] at hname
  obtain rfl := hname
  have hbase : base ++ [c] ≠ [] := by simp
  rw [← String.toList_inj, toList_withExtension hofParts hparts (isName_append hbase h.nonempty),
    stem_append hbase h.dot_notMem, hofParts]

/-- The path goes through some directories to a name. -/
structure EndsIn (path : String) (before : List (List Char)) (name : List Char) : Prop where
  toList_eq : path.toList = ofParts before name
  slash_notMem : ∀ part ∈ before ++ [name], '/' ∉ part
  isName : isName name = true

/-- A path has one name and one way to it. -/
theorem EndsIn.unique {path : String} {before before' : List (List Char)} {name name' : List Char}
    (h : EndsIn path before name) (h' : EndsIn path before' name') :
    before = before' ∧ name = name' := by
  have hsplit := congrArg splitSlash (h.toList_eq.symm.trans h'.toList_eq)
  rw [splitSlash_ofParts h.slash_notMem, splitSlash_ofParts h'.slash_notMem] at hsplit
  exact List.append_singleton_inj.mp hsplit

/-- With another extension a path ends in another name in the same directories. -/
theorem EndsIn.withExtension {path extension : String} {before : List (List Char)}
    {name : List Char} (h : EndsIn path before name) (hextension : IsExtension extension) :
    EndsIn (withExtension path extension) before (stem name ++ '.' :: extension.toList) where
  toList_eq := toList_withExtension h.toList_eq h.slash_notMem h.isName
  slash_notMem := by
    obtain ⟨hbefore, hname⟩ := List.forall_mem_append.mp h.slash_notMem
    have hstem : '/' ∉ stem name := mt mem_of_mem_stem (hname name (List.mem_singleton_self name))
    refine List.forall_mem_append.mpr ⟨hbefore, List.forall_mem_singleton.mpr ?_⟩
    simp [hstem, hextension.slash_notMem]
  isName := isName_append (stem_ne_nil (ne_nil_of_isName h.isName)) hextension.nonempty

/-- **A path that ends in a name stays as it is exactly if it has the extension already.** The dot
of an extension has something in front of it. -/
theorem EndsIn.withExtension_eq_self_iff {path extension : String} {before : List (List Char)}
    {name : List Char} (h : EndsIn path before name) (hextension : IsExtension extension) :
    Path.withExtension path extension = path ↔
      ∃ c ≠ '/', c :: '.' :: extension.toList <:+ path.toList := by
  constructor
  · intro heq
    have hpath := h.withExtension hextension
    rw [heq] at hpath
    obtain ⟨base, hbase, hname⟩ := (stem_append_eq_self_iff (ne_nil_of_isName h.isName)
      hextension.dot_notMem).mp (hpath.unique h).2
    obtain ⟨base, c, rfl⟩ := base.eq_nil_or_concat.resolve_left hbase
    have hslash : '/' ∉ name := h.slash_notMem name (by simp)
    refine ⟨c, ?_, before.flatMap (· ++ ['/']) ++ base, ?_⟩
    · rintro rfl
      exact hslash (by simp [hname])
    · rw [h.toList_eq, hname, ofParts]
      simp
  · rintro ⟨c, hc, hpath⟩
    exact withExtension_eq_self hextension hc hpath

end Path

/-! ### Names in one directory -/

namespace FileSystem

variable {σ : Type} [Files (StateM σ)] [FileSystem σ]

/-- In a state of a file system **names are told apart**: what can be read has a name, and two names
in the same directories lead to two places. -/
structure TellsNamesApart (s : σ) : Prop where
  exists_endsIn : ∀ {path : String} {bytes : ByteArray}, (reading path s).1 = .ok bytes →
    ∃ before name, Path.EndsIn path before name
  name_eq : ∀ {path path' : String} {before : List (List Char)} {name name' : List Char}
    {place : Place σ}, Path.EndsIn path before name → Path.EndsIn path' before name' →
    place? s path = some place → place? s path' = some place → name = name'

/-- **The file with another extension is the file itself exactly if its path is the same.** -/
theorem place?_withExtension_eq_iff {s : σ} (hs : TellsNamesApart s) {path extension : String}
    (hextension : Path.IsExtension extension) {bytes : ByteArray}
    (hread : (reading path s).1 = .ok bytes) :
    place? s path = place? s (Path.withExtension path extension) ↔
      ∃ c ≠ '/', c :: '.' :: extension.toList <:+ path.toList := by
  obtain ⟨before, name, hpath⟩ := hs.exists_endsIn hread
  obtain ⟨place, hplace, -⟩ := Option.bind_eq_some_iff.mp (standing_of_reading hread)
  rw [← hpath.withExtension_eq_self_iff hextension]
  constructor
  · intro heq
    have hname := hs.name_eq hpath (hpath.withExtension hextension) hplace (heq.symm.trans hplace)
    rw [← String.toList_inj, (hpath.withExtension hextension).toList_eq, ← hname, hpath.toList_eq]
  · intro heq
    rw [heq]

end FileSystem

namespace Disk

private theorem isName_toList_iff {name : String} :
    Path.isName name.toList = true ↔ ¬ (name = "" ∨ name = ".") ∧ name ≠ ".." := by
  have hempty : name = "" ↔ name.toList = [] := String.toList_inj.symm
  have hdot : name = "." ↔ name.toList = ['.'] := String.toList_inj.symm
  have hdots : name = ".." ↔ name.toList = ['.', '.'] := String.toList_inj.symm
  rw [hempty, hdot, ne_eq, hdots]
  simp only [Path.isName, Path.isIdle, Bool.and_eq_true, Bool.not_eq_true', Bool.or_eq_false_iff,
    decide_eq_false_iff_not, decide_eq_true_eq, not_or, ne_eq]

/-- A path that leads to a name ends in it, and every other name in its place is a name in the same
directory. -/
theorem exists_of_follow_named {d : Disk} {start place : Location} {parts : List String}
    {name : String} (h : d.follow start parts = .ok (.named place name)) :
    ∃ before, parts = before ++ [name] ∧ Path.isName name.toList = true ∧
      ∀ other, Path.isName other.toList = true →
        d.follow start (before ++ [other]) = .ok (.named place other) := by
  induction parts generalizing start with
  | nil => cases h
  | cons part rest ih =>
    -- A component that only leads on can be put in front of the path behind it.
    have hpass {next : Location} (h : d.follow next rest = .ok (.named place name))
        (hnext : ∀ parts ≠ [], d.follow start (part :: parts) = d.follow next parts) :
        ∃ before, part :: rest = before ++ [name] ∧ Path.isName name.toList = true ∧
          ∀ other, Path.isName other.toList = true →
            d.follow start (before ++ [other]) = .ok (.named place other) := by
      obtain ⟨before, hrest, hname, hothers⟩ := ih h
      refine ⟨part :: before, by rw [hrest, List.cons_append], hname, fun other hother => ?_⟩
      rw [List.cons_append, hnext _ (by simp)]
      exact hothers other hother
    unfold follow at h
    split at h
    · next hidle => exact hpass h fun parts _ => by rw [follow, if_pos hidle]
    next hidle =>
    split at h
    · next hup => exact hpass h fun parts _ => by rw [follow, if_neg hidle, if_pos hup]
    next hup =>
    split at h
    · next hrest =>
      cases h
      refine ⟨[], by rw [hrest, List.nil_append], isName_toList_iff.mpr ⟨hidle, hup⟩, ?_⟩
      intro other hother
      obtain ⟨hidle, hup⟩ := isName_toList_iff.mp hother
      rw [List.nil_append, follow, if_neg hidle, if_neg hup, if_pos rfl]
    · split at h
      · cases h
      · cases h
      · cases h
      · next hfind =>
        refine hpass h fun parts hparts => ?_
        rw [follow, if_neg hidle, if_neg hup, if_neg hparts, hfind]

private theorem map_eq_ok_iff {α β : Type} {x : Except FileError α} {f : α → β} {y : β} :
    x.map f = .ok y ↔ ∃ found, x = .ok found ∧ f found = y := by
  cases x <;> simp [Except.map]

/-- Whether a path starts at the root is up to its directories. -/
theorem head?_ofParts {before : List (List Char)} {name : List Char}
    (hparts : ∀ part ∈ before ++ [name], '/' ∉ part) :
    (Path.ofParts before name).head? = some '/' ↔ before.head? = some [] := by
  cases before with
  | nil =>
    refine iff_of_false (fun h => ?_) (by simp)
    exact hparts name (by simp) (List.mem_of_mem_head? h)
  | cons part before =>
    cases part with
    | nil => simp [Path.ofParts]
    | cons c part =>
      refine iff_of_false (fun h => ?_) (by simp)
      have hc : c = '/' := by simpa [Path.ofParts] using h
      exact hparts (c :: part) (by simp) (by simp [hc])

/-- Where a path starts, given its directories. -/
def startOf (d : Disk) (before : List (List Char)) : Location :=
  if before.head? = some [] then [] else d.workingDirectory

/-- A path with a name is followed from where it starts, unless it is too long. -/
private theorem resolve_of_ofParts {d : Disk} {path : String} {before : List (List Char)}
    {name : List Char} (hpath : path.toList = Path.ofParts before name)
    (hparts : ∀ part ∈ before ++ [name], '/' ∉ part) (hname : name ≠ []) :
    d.resolve path =
      if pathLimit < path.utf8ByteSize then .error .nameTooLong
      else (d.follow (d.startOf before)
        (before.map String.ofList ++ [String.ofList name])).map (·, false) := by
  have hne : path ≠ "" := by
    rintro rfl
    have hlength := congrArg List.length hpath
    have := List.length_pos_iff.mpr hname
    simp [Path.ofParts] at hlength
    omega
  have hempty : name.isEmpty = false := by simpa using hname
  have hnamed : ((before ++ [name]).reverse.dropWhile List.isEmpty).reverse = before ++ [name] := by
    simp [hempty]
  simp only [resolve, hpath, Path.splitSlash_ofParts hparts, head?_ofParts hparts, if_neg hne,
    hnamed, ne_eq, not_true_eq_false, decide_false, List.map_append, List.map_singleton, startOf]

/-- A path without a slash at its end has a name. -/
private theorem name_ne_nil_of_resolve {d : Disk} {path : String} {before : List (List Char)}
    {name : List Char} {target : Target} (hpath : path.toList = Path.ofParts before name)
    (hparts : ∀ part ∈ before ++ [name], '/' ∉ part) (h : d.resolve path = .ok (target, false)) :
    name ≠ [] := by
  rintro rfl
  simp only [resolve, hpath, Path.splitSlash_ofParts hparts] at h
  split at h
  · cases h
  split at h
  · cases h
  -- With an empty name a slash stands at the end, so that the path was said to end in one.
  have hnamed : ((before ++ [[]]).reverse.dropWhile List.isEmpty).reverse ≠ before ++ [[]] := by
    intro heq
    have hlength := congrArg List.length heq
    have hle := (List.dropWhile_suffix List.isEmpty : before.reverse.dropWhile _ <:+ _).length_le
    simp at hlength hle
    omega
  obtain ⟨found, -, hfound⟩ := map_eq_ok_iff.mp h
  rw [decide_eq_true hnamed] at hfound
  cases hfound

/-- A path that leads to a name ends in it. Another name in the same directories, if the path is not
too long, is another place in the same directory. -/
theorem exists_of_resolve_named {d : Disk} {path : String} {place : Location} {name : String}
    (h : d.resolve path = .ok (.named place name, false)) :
    ∃ before, Path.EndsIn path before name.toList ∧
      ∀ (path' : String) (other : List Char), Path.EndsIn path' before other →
        d.place? path' = none ∨ d.place? path' = some (place ++ [.ofList other]) := by
  obtain ⟨before, last, hpath, hparts⟩ := Path.exists_eq_ofParts path.toList
  rw [resolve_of_ofParts hpath hparts (name_ne_nil_of_resolve hpath hparts h)] at h
  split at h
  · cases h
  obtain ⟨target, hfollow, htarget⟩ := map_eq_ok_iff.mp h
  obtain rfl := congrArg Prod.fst htarget
  obtain ⟨before', hlast, hname, hothers⟩ := exists_of_follow_named hfollow
  obtain ⟨rfl, rfl⟩ := List.append_singleton_inj.mp hlast
  rw [String.toList_ofList] at hname ⊢
  refine ⟨before, ⟨hpath, hparts, hname⟩, fun path' other hpath' => ?_⟩
  have hother : Path.isName (String.ofList other).toList = true := by
    rw [String.toList_ofList]
    exact hpath'.isName
  rw [place?, resolve_of_ofParts hpath'.toList_eq hpath'.slash_notMem
    (Path.ne_nil_of_isName hpath'.isName), hothers _ hother]
  by_cases hlong : pathLimit < path'.utf8ByteSize
  · rw [if_pos hlong]
    exact .inl rfl
  · rw [if_neg hlong]
    exact .inr rfl

/-- A path that leads to a place leads to a name, in the directory of that place. -/
private theorem exists_of_place?_eq_some {d : Disk} {path : String} {location : Location}
    (h : d.place? path = some location) :
    ∃ place name, d.resolve path = .ok (.named place name, false) ∧ location = place ++ [name] := by
  unfold place? at h
  split at h
  · next place name hresolve =>
    refine ⟨place, name, ?_, (Option.some.inj h).symm⟩
    cases hpath : d.resolve path with
    | error e => simp [hpath, Except.toOption] at hresolve
    | ok found =>
      rw [hpath] at hresolve
      exact congrArg Except.ok (Option.some.inj hresolve)
  · cases h

/-- **On a disk two names in one directory are two places.** -/
theorem tellsNamesApart (d : Disk) : FileSystem.TellsNamesApart d where
  exists_endsIn hread := by
    obtain ⟨place, name, hresolve, -⟩ := entry?_of_read hread
    obtain ⟨before, hpath, -⟩ := exists_of_resolve_named hresolve
    exact ⟨before, name.toList, hpath⟩
  name_eq := by
    intro path path' before name name' location hpath hpath' hplace hplace'
    obtain ⟨place, found, hresolve, rfl⟩ := exists_of_place?_eq_some hplace
    obtain ⟨before', hfound, hothers⟩ := exists_of_resolve_named hresolve
    obtain ⟨rfl, rfl⟩ := hpath.unique hfound
    obtain hnone | hsome := hothers path' name' hpath'
    · cases hnone.symm.trans hplace'
    · have hlocation := Option.some.inj (hsome.symm.trans hplace')
      rw [← (List.append_singleton_inj.mp hlocation).2, String.toList_ofList]

end Disk

namespace Arguments

open FileSystem

/-- The path at which the listing is put by default. -/
def defaultOutput (a : Arguments) : String :=
  Path.withExtension a.input "asm"

private theorem outputPath_of_output_eq_none {a : Arguments} (h : a.output = none) :
    a.outputPath = a.defaultOutput := by
  rw [outputPath, h]
  rfl

/-- **What becomes of the input without an output path.** If a listing is generated, the default
output path leads to the input and the write succeeds, the input is that listing. It is as before if
no listing is generated or the default output path does not lead to it, and also if the write fails,
provided that a failed write leaves the files as they were. Where names are told apart, the default
output path of an input that can be read leads to it exactly if its name ends in `.asm` and
something stands in front of that. -/
theorem input_kept_or_replaced {σ : Type} [Files (StateM σ)] [FileSystem σ] (a : Arguments)
    (houtput : a.output = none) (before : σ) :
    (∀ asm, a.Generates before asm → Writable before a.defaultOutput asm.listing →
      place? before a.input = place? before a.defaultOutput →
      entryAt (a.runOn before).2 a.input = some (.file asm.listing.toUTF8)) ∧
    ((¬ ∃ asm, a.Generates before asm ∧
        place? before a.input = place? before a.defaultOutput) →
      entryAt (a.runOn before).2 a.input = entryAt before a.input) ∧
    (CleanFailure σ →
      (¬ ∃ asm, a.Generates before asm ∧ Writable before a.defaultOutput asm.listing) →
      entryAt (a.runOn before).2 a.input = entryAt before a.input) ∧
    (TellsNamesApart before → ∀ source, ReadsAs before a.input source →
      (place? before a.input = place? before a.defaultOutput ↔
        ∃ c ≠ '/', c :: ".asm".toList <:+ a.input.toList)) := by
  have hpath := outputPath_of_output_eq_none houtput
  refine ⟨fun asm hasm hwritable hplace => ?_, fun h => ?_, fun hclean h => ?_,
    fun hnames source hsource => ?_⟩
  · rw [← hpath] at hwritable hplace
    exact entryAt_runOn_of_generates hasm hwritable hplace
  · rw [← hpath] at h
    exact entryAt_runOn_of_not_generates h
  · rw [← hpath] at h
    rw [runOn_of_not_writable h]
  · exact place?_withExtension_eq_iff hnames Path.isExtension_asm hsource

/-- An input with another extension is as before. -/
theorem plain_input_kept :
    (plain "in.src").output = none ∧ ReadsAs (smallDisk "in.src") "in.src" assignment ∧
      entryAt ((plain "in.src").runOn (smallDisk "in.src")).2 "in.src" =
        some (.file assignment.toUTF8) := by
  refine ⟨rfl, rfl, ?_⟩
  obtain ⟨-, hkept, -, hplace⟩ := input_kept_or_replaced (plain "in.src") rfl (smallDisk "in.src")
  refine hkept ?_
  rintro ⟨asm, -, hsame⟩
  obtain ⟨c, -, hsuffix⟩ := (hplace (Disk.tellsNamesApart _) assignment rfl).mp hsame
  have hsuffix : ".asm".toList <:+ "in.src".toList := (List.suffix_cons c _).trans hsuffix
  exact absurd hsuffix (by decide)

/-- A file of source code with the extension of listings is replaced by its own listing. -/
theorem source_replaced_by_listing :
    (plain "x.asm").output = none ∧
      entryAt (smallDisk "x.asm") "x.asm" = some (.file assignment.toUTF8) ∧
      entryAt ((plain "x.asm").runOn (smallDisk "x.asm")).2 "x.asm" =
        some (.file assignmentProgram.assembly.listing.toUTF8) ∧
      assignmentProgram.assembly.listing.toUTF8 ≠ assignment.toUTF8 := by
  have hsource : ReadsAs (smallDisk "x.asm") "x.asm" assignment := rfl
  have hgenerates : (plain "x.asm").Generates (smallDisk "x.asm") assignmentProgram.assembly :=
    (generates_iff hsource rfl (program_assignment _) rfl).mpr rfl
  refine ⟨rfl, rfl, entryAt_runOn_of_generates hgenerates rfl rfl, fun heq => ?_⟩
  exact absurd (String.toByteArray_inj.mp heq) (by decide +kernel)

end Arguments

end TinyImp
