import TinyImp.Command.Disk

/-!
# File systems

A file system is seen through the *places* to which paths lead and what stands at them. Reading
changes nothing and gives what stands at a place. A write leaves all places but that of its path as
they are, and if it succeeds puts a file there (`FileSystem`). Nothing is said about which accesses
succeed, about links, about which paths lead to one place, or about what a failed write leaves
behind at its own place: that it leaves everything as it was is a property of some file systems
(`CleanFailure`), and not of those that empty a file before they fill it. The disk in memory is a
file system that has it.

Any file system can keep a **journal** of the writes that succeed (`Journal`). It tells a file that
was written from one that holds the same bytes as before by chance.
-/

namespace TinyImp

section

variable {σ : Type} [Files (StateM σ)]

/-- Reading a file in a state. -/
def reading (path : String) (s : σ) : Except FileError ByteArray × σ :=
  (Files.read path : StateM σ _) s

/-- Writing a file in a state. -/
def writing (path : String) (bytes : ByteArray) (s : σ) : Except FileError Unit × σ :=
  (Files.write path bytes : StateM σ _) s

/-- The path can be read, and its bytes are the UTF-8 form of the text. -/
def ReadsAs (s : σ) (path text : String) : Prop :=
  (reading path s).1 = .ok text.toUTF8

/-- The text can be written to the path. -/
def Writable (s : σ) (path text : String) : Prop :=
  (writing path text.toUTF8 s).1 = .ok ()

/-- A file is the UTF-8 form of one text only. -/
theorem ReadsAs.unique {s : σ} {path text text' : String} (h : ReadsAs s path text)
    (h' : ReadsAs s path text') : text = text' :=
  String.toByteArray_inj.mp (Except.ok.inj (h.symm.trans h'))

end

/-- A state of files that can be read and written by path. -/
class FileSystem (σ : Type) [Files (StateM σ)] where
  /-- What files and directories can stand at. -/
  Place : Type
  /-- The place that a path leads to. -/
  place? : σ → String → Option Place
  /-- What stands at a place. -/
  standing : σ → Place → Option Entry
  /-- Reading changes nothing. -/
  state_reading : ∀ (path : String) (s : σ), (reading path s).2 = s
  /-- What is read stands at the place of the path. -/
  standing_of_reading : ∀ {path : String} {s : σ} {bytes : ByteArray},
    (reading path s).1 = .ok bytes → (place? s path).bind (standing s) = some (.file bytes)
  /-- A path leads to the same place after a write. -/
  place?_writing : ∀ {path : String} {bytes : ByteArray} {s : σ} (other : String),
    place? (writing path bytes s).2 other = place? s other
  /-- What is written stands at the place of the path. -/
  standing_writing : ∀ {path : String} {bytes : ByteArray} {s : σ},
    (writing path bytes s).1 = .ok () →
      ∃ place, place? s path = some place ∧
        standing (writing path bytes s).2 place = some (.file bytes)
  /-- A write changes nothing at any other place, whether or not it succeeds. -/
  standing_writing_of_ne : ∀ {path : String} {bytes : ByteArray} {s : σ} {other : Place},
    place? s path ≠ some other → standing (writing path bytes s).2 other = standing s other

/-- A failed write changes nothing. -/
class CleanFailure (σ : Type) [Files (StateM σ)] : Prop where
  state_writing_error : ∀ {path : String} {bytes : ByteArray} {s : σ} {e : FileError},
    (writing path bytes s).1 = .error e → (writing path bytes s).2 = s

namespace FileSystem

variable {σ : Type} [Files (StateM σ)] [FileSystem σ]

/-- What a path leads to. -/
def entryAt (s : σ) (path : String) : Option Entry :=
  (place? s path).bind (standing s)

/-- What is written stands wherever a path leads to the same place. -/
theorem entryAt_writing {path : String} {bytes : ByteArray} {s : σ}
    (h : (writing path bytes s).1 = .ok ()) {other : String}
    (hother : place? s other = place? s path) :
    entryAt (writing path bytes s).2 other = some (.file bytes) := by
  obtain ⟨place, hplace, hentry⟩ := standing_writing h
  rw [entryAt, place?_writing, hother, hplace]
  exact hentry

/-- A write changes nothing that another path leads to, if that is another place. -/
theorem entryAt_writing_of_ne {path : String} {bytes : ByteArray} {s : σ} {other : String}
    (hother : place? s other ≠ place? s path) :
    entryAt (writing path bytes s).2 other = entryAt s other := by
  rw [entryAt, entryAt, place?_writing]
  cases hfound : place? s other with
  | none => rfl
  | some place =>
    rw [hfound] at hother
    exact standing_writing_of_ne hother.symm

end FileSystem

/-! ### The disk in memory -/

namespace Disk

/-- The location of the file or directory that a path names. -/
def place? (d : Disk) (path : String) : Option Location :=
  match (d.resolve path).toOption with
  | some (.named place name, false) => some (place ++ [name])
  | _ => none

private theorem place?_of_resolve {d : Disk} {path : String} {place : Location} {name : String}
    (h : d.resolve path = .ok (.named place name, false)) :
    d.place? path = some (place ++ [name]) := by
  rw [place?, h]
  rfl

private theorem find_eq_ok_iff {d : Disk} {place : Location} {name : String} {e : Option Entry} :
    d.find place name = .ok e ↔ name.utf8ByteSize ≤ nameLimit ∧ d.entry? (place ++ [name]) = e := by
  unfold find
  split
  · next h => simp [Nat.not_le.mpr h]
  · next h => simp [Nat.not_lt.mp h]

/-- What is read stands where the path leads to. -/
theorem entry?_of_read {d : Disk} {path : String} {bytes : ByteArray}
    (h : d.read path = .ok bytes) :
    ∃ place name, d.resolve path = .ok (.named place name, false) ∧
      d.entry? (place ++ [name]) = some (.file bytes) := by
  unfold read at h
  split at h
  · cases h
  · cases h
  · next place name slashAtEnd hresolve =>
    split at h
    · cases h
    · cases h
    · cases h
    · next found hfind =>
      cases slashAtEnd with
      | true => cases h
      | false =>
        cases h
        exact ⟨place, name, hresolve, (find_eq_ok_iff.mp hfind).2⟩

/-- A write puts a file where the path leads to, and not in the place of a directory. -/
theorem exists_of_write {d after : Disk} {path : String} {bytes : ByteArray}
    (h : d.write path bytes = .ok after) :
    ∃ place name, d.resolve path = .ok (.named place name, false) ∧
      d.entry? (place ++ [name]) ≠ some .directory ∧
      after = d.put (place ++ [name]) (.file bytes) := by
  unfold write at h
  split at h
  · cases h
  · cases h
  · next place name slashAtEnd hresolve =>
    cases slashAtEnd with
    | true => cases h
    | false =>
      simp only [Bool.false_eq_true, if_false] at h
      split at h
      · cases h
      · cases h
      · next found hdirectory hfind =>
        cases h
        refine ⟨place, name, hresolve, fun hentry => hdirectory ?_, rfl⟩
        rw [← (find_eq_ok_iff.mp hfind).2]
        exact hentry

section

variable {d : Disk} {location other : Location} {e : Entry}

private theorem entry?_put (hlocation : location ≠ []) :
    entry? (d.put location e) location = some e := by
  simp [put, entry?, hlocation]

/-- Other places keep their entries. -/
private theorem entry?_put_of_ne (hother : other ≠ location) :
    entry? (d.put location e) other = d.entry? other := by
  have hlookup (entries : List (Location × Entry)) :
      (entries.filter (·.1 ≠ location)).lookup other = entries.lookup other := by
    induction entries with
    | nil => rfl
    | cons entry entries ih =>
      obtain ⟨key, value⟩ := entry
      by_cases hkey : key = location
      · rw [List.filter_cons_of_neg (by simpa using hkey), List.lookup_cons, hkey,
          beq_false_of_ne hother]
        exact ih
      · rw [List.filter_cons_of_pos (by simpa using hkey), List.lookup_cons, List.lookup_cons, ih]
  have hput : (d.put location e).entries.lookup other = d.entries.lookup other := by
    rw [put, List.lookup_cons, beq_false_of_ne hother]
    exact hlookup d.entries
  unfold entry?
  rw [hput]

/-- A path leads to the same place when a file is put where there is no directory: from a name that
leads to no directory before, no path goes on afterwards. -/
theorem toOption_follow_put (hlocation : location ≠ [])
    (hdirectory : d.entry? location ≠ some .directory) (bytes : ByteArray) (place : Location)
    (parts : List String) :
    ((d.put location (.file bytes)).follow place parts).toOption =
      (d.follow place parts).toOption := by
  induction parts generalizing place with
  | nil => rfl
  | cons part rest ih =>
    unfold follow
    split
    · exact ih place
    split
    · exact ih place.dropLast
    split
    · rfl
    rw [find, find]
    by_cases hlong : nameLimit < part.utf8ByteSize
    · rw [if_pos hlong, if_pos hlong]
    rw [if_neg hlong, if_neg hlong]
    by_cases hsame : place ++ [part] = location
    · rw [hsame, entry?_put hlocation]
      cases hentry : d.entry? location with
      | none => rfl
      | some found =>
        cases found with
        | directory => exact absurd hentry hdirectory
        | file => rfl
    · rw [entry?_put_of_ne hsame]
      cases d.entry? (place ++ [part]) with
      | none => rfl
      | some found =>
        cases found with
        | directory => exact ih (place ++ [part])
        | file => rfl

/-- A file that is written does not change where paths lead. -/
private theorem place?_put (hlocation : location ≠ [])
    (hdirectory : d.entry? location ≠ some .directory)
    (bytes : ByteArray) (path : String) :
    (d.put location (.file bytes)).place? path = d.place? path := by
  have hresolve : ((d.put location (.file bytes)).resolve path).toOption =
      (d.resolve path).toOption := by
    have hmap {α β : Type} (f : α → β) (x : Except FileError α) :
        (x.map f).toOption = x.toOption.map f := by
      cases x <;> rfl
    simp only [resolve]
    split
    · rfl
    split
    · rfl
    rw [hmap, hmap, toOption_follow_put hlocation hdirectory]
    rfl
  rw [place?, place?, hresolve]

end

private theorem writing_of_ok {d after : Disk} {path : String} {bytes : ByteArray}
    (h : d.write path bytes = .ok after) : writing path bytes d = (.ok (), after) := by
  simp only [writing, Files.write, h]

private theorem writing_of_error {d : Disk} {path : String} {bytes : ByteArray} {e : FileError}
    (h : d.write path bytes = .error e) : writing path bytes d = (.error e, d) := by
  simp only [writing, Files.write, h]

instance : FileSystem Disk where
  Place := Location
  place? := place?
  standing := entry?
  state_reading _ _ := rfl
  standing_of_reading h := by
    obtain ⟨place, name, hresolve, hentry⟩ := entry?_of_read h
    rw [place?_of_resolve hresolve]
    exact hentry
  place?_writing {path bytes d} other := by
    cases hwrite : d.write path bytes with
    | ok after =>
      obtain ⟨place, name, -, hdirectory, rfl⟩ := exists_of_write hwrite
      rw [writing_of_ok hwrite]
      exact place?_put (by simp) hdirectory bytes other
    | error e => rw [writing_of_error hwrite]
  standing_writing {path bytes d} h := by
    cases hwrite : d.write path bytes with
    | ok after =>
      obtain ⟨place, name, hresolve, -, rfl⟩ := exists_of_write hwrite
      rw [writing_of_ok hwrite]
      exact ⟨place ++ [name], place?_of_resolve hresolve, entry?_put (by simp)⟩
    | error e =>
      rw [writing_of_error hwrite] at h
      cases h
  standing_writing_of_ne {path bytes d other} hother := by
    cases hwrite : d.write path bytes with
    | ok after =>
      obtain ⟨place, name, hresolve, -, rfl⟩ := exists_of_write hwrite
      rw [writing_of_ok hwrite]
      refine entry?_put_of_ne fun heq => hother ?_
      rw [place?_of_resolve hresolve, heq]
    | error e => rw [writing_of_error hwrite]

instance : CleanFailure Disk where
  state_writing_error {path bytes d _} h := by
    cases hwrite : d.write path bytes with
    | ok after =>
      rw [writing_of_ok hwrite] at h
      cases h
    | error e => rw [writing_of_error hwrite]

end Disk

/-! ### Journals -/

/-- Files, and the writes that have succeeded on them. -/
structure Journal (σ : Type) where
  files : σ
  writes : List (String × ByteArray) := []

namespace Journal

variable {σ : Type} [Files (StateM σ)]

/-- The files of the journal are read and written, and a write that succeeds is added to it. -/
instance : Files (StateM (Journal σ)) where
  read path := fun j => ((reading path j.files).1, { j with files := (reading path j.files).2 })
  write path bytes := fun j =>
    match (writing path bytes j.files).1 with
    | .ok () => (.ok (), ⟨(writing path bytes j.files).2, j.writes ++ [(path, bytes)]⟩)
    | .error e => (.error e, { j with files := (writing path bytes j.files).2 })

/-- A write that succeeds is added to the journal. -/
theorem writing_of_ok {path : String} {bytes : ByteArray} {j : Journal σ}
    (h : (writing path bytes j.files).1 = .ok ()) :
    writing path bytes j =
      (.ok (), ⟨(writing path bytes j.files).2, j.writes ++ [(path, bytes)]⟩) := by
  rw [writing]
  simp only [Files.write, h]

/-- A write that fails is not added to the journal. -/
theorem writing_of_error {path : String} {bytes : ByteArray} {j : Journal σ} {e : FileError}
    (h : (writing path bytes j.files).1 = .error e) :
    writing path bytes j = (.error e, ⟨(writing path bytes j.files).2, j.writes⟩) := by
  rw [writing]
  simp only [Files.write, h]

end Journal

end TinyImp
