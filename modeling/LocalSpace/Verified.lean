import Mathlib.Data.Int.Basic
import LocalSpace.Downloads

/-!
# Verified models

`models.rs`: a model is installed once the SHA-256 of each of its files was found to be the published
one. That a file was is kept as a stamp of its length and time, in memory and in `verified.json`, and
the stamp is taken from the file as it is after its content was read: what another program does to
the file between the two is stamped with it.
-/

namespace LocalSpace

namespace Models

namespace Checks

/-! ### The folder -/

/-- A file's content, and when it was modified, in nanoseconds of the epoch. -/
structure File where
  content : List UInt8
  modified : ℤ

/-- `length_and_time`: the time is in whole milliseconds, and none before the epoch. -/
def File.lengthAndTime (f : File) : Option (ℕ × ℕ) :=
  if f.modified < 0 then none
  else some (f.content.length, (f.modified / 1000000).toNat % 2 ^ 64)

/-- The models folder: what each name stands for, and what the files are that there ever were. -/
structure Folder where
  names : String → Option ℕ
  files : ℕ → File
  next : ℕ

namespace Folder

variable (d : Folder)

@[grind =]
def file (path : String) : Option File :=
  (d.names path).map d.files

def isFile (path : String) : Bool :=
  (d.names path).isSome

def lengthAndTime (path : String) : Option (ℕ × ℕ) :=
  (d.file path).bind File.lengthAndTime

def remove (path : String) : Folder :=
  { d with names := Function.update d.names path none }

/-- A new file, in the place of what had its name. -/
def create (path : String) (f : File) : Folder :=
  ⟨Function.update d.names path (some d.next), Function.update d.files d.next f, d.next + 1⟩

/-- A file is written where it is, or made. -/
@[grind =]
def write (path : String) (f : File) : Folder :=
  match d.names path with
  | some i => { d with files := Function.update d.files i f }
  | none => d.create path f

def rename (path path' : String) : Folder :=
  { d with names := Function.update (Function.update d.names path' (d.names path)) path none }

end Folder

/-! ### Stamps -/

/-- A file whose SHA-256 was found to be the published one, as the file then was. -/
structure Stamp where
  bytes : ℕ
  modifiedMs : ℕ
  sha256 : String

/-- The digest a file is held to, if there is one. -/
def digestOf (check : Option FileCheck) : Option String :=
  (check.map FileCheck.sha256).filter (· ≠ "")

/-- Whether a file is what it must be, by its stamp. -/
def holds (verified : String → Option Stamp) (d : Folder) (file : String)
    (check : Option FileCheck) : Bool :=
  match digestOf check, d.lengthAndTime file with
  | none, _ => true
  | some _, none => false
  | some sha256, some (bytes, modifiedMs) =>
    (verified file).any fun stamp =>
      stamp.bytes = bytes ∧ stamp.modifiedMs = modifiedMs ∧ stamp.sha256 = sha256

/-- The stamp of a file as it is now. -/
def stampOf (d : Folder) (file sha256 : String) : Option Stamp :=
  (d.lengthAndTime file).map fun (bytes, modifiedMs) => ⟨bytes, modifiedMs, sha256⟩

/-! ### The threads -/

/-- How far a look at a file has come: it is open and was read so far, its digest was found, or its
stamp was taken and is to be recorded. -/
inductive Look where
  | opened (i : ℕ) (read : List UInt8)
  | found (digest : String)
  | stamped (stamp : Stamp)

/-- The scanning thread: the files it has to look at, and how far it is with the first. -/
structure Scan where
  work : List (String × FileCheck)
  look : Option Look

/-- A file that is fetched: nothing was done yet; the file that is here is looked at (it was so
long); its part is written; the part is looked at; the part is to take its name. -/
inductive Stage where
  | next
  | here (size : ℕ) (look : Look)
  | fetching
  | arrived (look : Look)
  | finishing

/-- The downloads' thread: a model, the files of it that are still to come, and how far it is with
the first. -/
structure Fetch where
  model : CatalogModel
  files : List String
  stage : Stage

/-- What became of writing `verified.json`: it was written, only in part, or not at all. -/
inductive Written where
  | whole
  | torn
  | failed

/-- The folder, the stamps in memory and in `verified.json` (none where it cannot be read), the
threads, and what a deletion has to remove and to forget. -/
structure State where
  folder : Folder
  verified : String → Option Stamp
  record : Option (String → Option Stamp)
  scan : Option Scan
  fetch : Option Fetch
  deleting : Option (List String × List String)

namespace State

/-- The first start on a folder. -/
@[grind =]
def start (folder : Folder) : State :=
  ⟨folder, fun _ => none, none, none, none, none⟩

variable (sha256 : List UInt8 → String) (models : List CatalogModel) (s : State)

/-- The path that a model is loaded from: its first file, once every file is here. -/
def installedPath (id : String) : Option String :=
  match models.find? fun m => m.id = id with
  | none => none
  | some m =>
    match m.path with
    | some path => if s.folder.isFile path then some path else none
    | none =>
      if (∀ file ∈ m.files, s.folder.isFile file) ∧ (∀ file ∈ m.files, !s.folder.isFile (part file)) ∧
          ∀ file ∈ m.files, holds s.verified s.folder file (m.verify file) then m.files.head?
      else none

/-- Files that are here under a catalog entry's name, finished, and not known to be the published
ones. -/
def unchecked (m : CatalogModel) : List (String × FileCheck) :=
  (m.files.filter fun file => s.folder.isFile file && !s.folder.isFile (part file) &&
    !holds s.verified s.folder file (m.verify file)).filterMap fun file =>
      (m.verify file).map fun check => (file, check)

/-- A look at what is there begins, unless one is under way; `skipped` are the models that
`downloads` says are busy. -/
@[grind =]
def scanPresent (skipped : List String) : State :=
  let work := (models.filter fun m => m.path.isNone ∧ m.id ∉ skipped).flatMap s.unchecked
  if work = [] ∨ s.scan.isSome then s else { s with scan := some ⟨work, none⟩ }

/-- The record of stamps is written down. -/
def recordAs (how : Written) (verified : String → Option Stamp) : State :=
  { s with
    verified
    record := match how with
      | .whole => some verified
      | .torn => none
      | .failed => s.record }

def stamp (how : Written) (file : String) (stamp : Stamp) : State :=
  s.recordAs how (Function.update s.verified file (some stamp))

/-- A piece of an open file is read; with the last the digest is known. -/
def readOn (i : ℕ) (read : List UInt8) (n : ℕ) : Look :=
  match ((s.folder.files i).content.drop read.length).take (n % 2 ^ 20 + 1) with
  | [] => .found (sha256 read)
  | piece => .opened i (read ++ piece)

/-- The scanning thread goes on: a file is opened, read, compared, stamped and recorded, one after
another. -/
@[grind =]
def scanGoesOn (n : ℕ) (how : Written) : State :=
  match s.scan with
  | none => s
  | some ⟨[], _⟩ => { s with scan := none }
  | some ⟨(file, check) :: rest, none⟩ =>
    match s.folder.names file with
    | none => { s with scan := some ⟨rest, none⟩ }
    | some i => { s with scan := some ⟨(file, check) :: rest, some (.opened i [])⟩ }
  | some ⟨(file, check) :: rest, some (.opened i read)⟩ =>
    { s with scan := some ⟨(file, check) :: rest, some (s.readOn sha256 i read n)⟩ }
  | some ⟨(file, check) :: rest, some (.found digest)⟩ =>
    if digest = check.sha256 then
      match stampOf s.folder file digest with
      | none => { s with scan := some ⟨rest, none⟩ }
      | some stamp => { s with scan := some ⟨(file, check) :: rest, some (.stamped stamp)⟩ }
    else { s with scan := some ⟨rest, none⟩ }
  | some ⟨(file, _) :: rest, some (.stamped stamp)⟩ =>
    { s.stamp how file stamp with scan := some ⟨rest, none⟩ }

/-- A file could not be read. -/
def scanFails : State :=
  match s.scan with
  | some ⟨_ :: rest, _⟩ => { s with scan := some ⟨rest, none⟩ }
  | _ => s

def fetchAt (m : CatalogModel) (files : List String) (stage : Stage) : State :=
  { s with fetch := some ⟨m, files, stage⟩ }

/-- The download of a model begins: the line lets one through at a time. -/
def download (m : CatalogModel) : State :=
  if s.fetch.isSome then s else s.fetchAt m m.files .next

/-- The downloads' thread goes on with a file: with one that is here under its name, with its part,
and with giving the part its name. -/
def fetchFile (m : CatalogModel) (file : String) (rest : List String) (n : ℕ) (how : Written) :
    Stage → State
  | .next =>
    if s.folder.isFile file ∧ !s.folder.isFile (part file) then
      if holds s.verified s.folder file (m.verify file) then s.fetchAt m rest .next
      else
        match s.folder.names file with
        | none => { s with fetch := none }
        | some i =>
          s.fetchAt m (file :: rest) (.here (s.folder.files i).content.length (.opened i []))
    else s.fetchAt m (file :: rest) .fetching
  | .here size (.opened i read) =>
    s.fetchAt m (file :: rest) (.here size (s.readOn sha256 i read n))
  | .here size (.found digest) =>
    if some digest = digestOf (m.verify file) then
      match stampOf s.folder file digest with
      | none => s.fetchAt m rest .next
      | some stamp => s.fetchAt m (file :: rest) (.here size (.stamped stamp))
    else if (m.verify file).any fun check => size < check.bytes then { s with fetch := none }
    else { s.fetchAt m (file :: rest) .fetching with folder := s.folder.remove file }
  | .here _ (.stamped stamp) => (s.stamp how file stamp).fetchAt m rest .next
  | .fetching =>
    match digestOf (m.verify file), s.folder.names (part file) with
    | none, _ => s.fetchAt m (file :: rest) .finishing
    | some _, none => { s with fetch := none }
    | some _, some i => s.fetchAt m (file :: rest) (.arrived (.opened i []))
  | .arrived (.opened i read) =>
    s.fetchAt m (file :: rest) (.arrived (s.readOn sha256 i read n))
  | .arrived (.found digest) =>
    if some digest = digestOf (m.verify file) then s.fetchAt m (file :: rest) .finishing
    else { s with folder := s.folder.remove (part file), fetch := none }
  | .arrived (.stamped _) => s
  | .finishing =>
    if s.folder.isFile (part file) then
      let s := { s with folder := s.folder.rename (part file) file }
      match digestOf (m.verify file) with
      | none => s.fetchAt m rest .next
      | some digest => s.fetchAt m (file :: rest) (.here 0 (.found digest))
    else { s with fetch := none }

def fetchGoesOn (n : ℕ) (how : Written) : State :=
  match s.fetch with
  | none => s
  | some ⟨_, [], _⟩ => { s with fetch := none }
  | some ⟨m, file :: rest, stage⟩ => s.fetchFile sha256 m file rest n how stage

/-- What the server sends is written to the part, or the part is thrown away. -/
def fetchWrites (f : Option File) : State :=
  match s.fetch with
  | some ⟨_, file :: _, .fetching⟩ =>
    { s with folder := f.elim (s.folder.remove (part file)) (s.folder.write (part file)) }
  | _ => s

/-- A model's files are to be deleted, unless it is being fetched. -/
@[grind =]
def delete (m : CatalogModel) : State :=
  if m.path.isSome ∨ s.fetch.any (fun fetch => fetch.model.id = m.id) ∨ s.deleting.isSome then s
  else { s with deleting := some (m.paths, m.files) }

/-- A path is removed; at last the stamps are forgotten. -/
def deleteGoesOn (how : Written) : State :=
  match s.deleting with
  | none => s
  | some (path :: paths, files) =>
    { s with folder := s.folder.remove path, deleting := some (paths, files) }
  | some ([], files) =>
    { s.recordAs how (fun file => if file ∈ files then none else s.verified file) with
      deleting := none }

/-- Core starts again, with the record read back. -/
def restart : State :=
  ⟨s.folder, s.record.getD fun _ => none, s.record, none, none, none⟩

end State

/-! ### Runs -/

inductive Act where
  | scanPresent (skipped : List String)
  | scanGoesOn (n : ℕ) (how : Written)
  | scanFails
  | download (m : CatalogModel)
  | fetchGoesOn (n : ℕ) (how : Written)
  | fetchWrites (f : Option File)
  | fetchFails
  | delete (m : CatalogModel)
  | deleteGoesOn (how : Written)
  | deleteFails
  | restart
  -- What other programs do.
  | create (path : String) (f : File)
  | write (path : String) (f : File)
  | remove (path : String)
  | rename (path path' : String)
  | writeRecord (record : Option (String → Option Stamp))

namespace Act

variable (sha256 : List UInt8 → String) (models : List CatalogModel)

@[grind =]
def apply (s : State) : Act → State
  | scanPresent skipped => s.scanPresent models skipped
  | scanGoesOn n how => s.scanGoesOn sha256 n how
  | scanFails => s.scanFails
  | download m => s.download m
  | fetchGoesOn n how => s.fetchGoesOn sha256 n how
  | fetchWrites f => s.fetchWrites f
  | fetchFails => { s with fetch := none }
  | delete m => s.delete m
  | deleteGoesOn how => s.deleteGoesOn how
  | deleteFails => { s with deleting := none }
  | restart => s.restart
  | create path f => { s with folder := s.folder.create path f }
  | write path f => { s with folder := s.folder.write path f }
  | remove path => { s with folder := s.folder.remove path }
  | rename path path' => { s with folder := s.folder.rename path path' }
  | writeRecord record => { s with record }

end Act

/-- Two names of one file. -/
def Folder.Same (d : Folder) (path path' : String) : Prop :=
  path = path' ∨ d.names path = d.names path' ∧ d.isFile path'

/-- What the downloads' thread removes or replaces with its next step. -/
def State.fetchChanges (s : State) : List String :=
  match s.fetch with
  | some ⟨m, file :: _, .here _ (.found digest)⟩ =>
    if some digest = digestOf (m.verify file) then [] else [file]
  | some ⟨m, file :: _, .arrived (.found digest)⟩ =>
    if some digest = digestOf (m.verify file) then [] else [part file]
  | some ⟨_, file :: _, .finishing⟩ => [part file, file]
  | _ => []

/-- An act removes, replaces or writes the file of a name. -/
def Act.Touches (s : State) (path : String) : Act → Prop
  | fetchGoesOn _ _ => path ∈ s.fetchChanges
  | fetchWrites _ =>
    ∃ m file rest, s.fetch = some ⟨m, file :: rest, .fetching⟩ ∧ s.folder.Same path (part file)
  | deleteGoesOn _ => ∃ paths files, s.deleting = some (path :: paths, files)
  | create path' _ | remove path' => path = path'
  | write path' _ => s.folder.Same path path'
  | rename path' path'' => path = path' ∨ path = path''
  | _ => False

/-- A file of this name is looked at, and has not been stamped. -/
def Look.inHand (path : String) : Look → Option String
  | opened _ _ | found _ => some path
  | stamped _ => none

/-- What the scanning thread has in hand. -/
def State.scanHand (s : State) : Option String :=
  match s.scan with
  | some ⟨(file, _) :: _, some look⟩ => look.inHand file
  | _ => none

/-- What the downloads' thread has in hand. -/
def State.fetchHand (s : State) : Option String :=
  match s.fetch with
  | some ⟨_, file :: _, .here _ look⟩ => look.inHand file
  | some ⟨_, file :: _, .arrived look⟩ => look.inHand (part file)
  | some ⟨_, file :: _, .finishing⟩ => some (part file)
  | _ => none

section Runs

variable (sha256 : List UInt8 → String) (models : List CatalogModel)
variable (contents : String → ℕ × ℕ → List UInt8)

/-- A file whose content changes changes its length or the millisecond it was modified in: what a
file of a name contains is known by these two. -/
def Faithful (d : Folder) : Prop :=
  ∀ path f bm, d.file path = some f → f.lengthAndTime = some bm → f.content = contents path bm

/-- Stamps of what the files have the digests of. -/
def Honest (verified : String → Option Stamp) : Prop :=
  ∀ file stamp, verified file = some stamp →
    sha256 (contents file (stamp.bytes, stamp.modifiedMs)) = stamp.sha256

/-- What is asked of an act: it touches no file that a thread (another than its own) looks at and
has not stamped; what another program writes into the record is so. -/
def Act.Meets (s : State) (a : Act) : Prop :=
  (∀ path, s.scanHand = some path → ¬a.Touches s path) ∧
    (∀ path, s.fetchHand = some path → (∃ n how, a = .fetchGoesOn n how) ∨ ¬a.Touches s path) ∧
      (∀ record, a = .writeRecord (some record) → Honest sha256 contents record) ∧
        Faithful contents (a.apply sha256 models s).folder

open Library

def checks : System State Act :=
  ⟨Act.apply sha256 models, fun _ _ => True⟩

/-- Of every entry without a path of its own that counts as installed, every file that has a digest
is here with a content of that digest. -/
def State.Published (s : State) : Prop :=
  ∀ id m, models.find? (fun m => m.id = id) = some m → m.path = none →
    (s.installedPath models id).isSome → ∀ file ∈ m.files, ∀ digest,
      digestOf (m.verify file) = some digest →
        ∃ f, s.folder.file file = some f ∧ sha256 f.content = digest

end Runs

/-! ### What a step keeps -/

section Steps

variable {sha256 : List UInt8 → String} {models : List CatalogModel}
variable {contents : String → ℕ × ℕ → List UInt8} {s : State} {d d' : Folder}
variable {path path' : String} {f : File}

/-- A name stands for the same file, with the same content. -/
def Folder.Keeps (d d' : Folder) (path : String) : Prop :=
  d'.names path = d.names path ∧ d'.file path = d.file path

/-- Files are numbered as they come. -/
def Folder.Numbered (d : Folder) : Prop :=
  ∀ path i, d.names path = some i → i < d.next

theorem Folder.keeps_remove (h : path ≠ path') : d.Keeps (d.remove path') path := by
  have hname : (d.remove path').names path = d.names path := Function.update_of_ne h _ _
  exact ⟨hname, congrArg (Option.map d.files) hname⟩

theorem Folder.keeps_create (hd : d.Numbered) (h : path ≠ path') :
    d.Keeps (d.create path' f) path := by
  have hname : (d.create path' f).names path = d.names path := Function.update_of_ne h _ _
  refine ⟨hname, ?_⟩
  rw [Folder.file, Folder.file, hname]
  refine Option.map_congr fun i hi => Function.update_of_ne ?_ _ _
  exact Nat.ne_of_lt (hd path i hi)

theorem Folder.keeps_write (hd : d.Numbered) (h : ¬d.Same path path') :
    d.Keeps (d.write path' f) path := by
  rw [Folder.Same, not_or, not_and] at h
  rw [Folder.write]
  cases hpath : d.names path' with
  | none => exact Folder.keeps_create hd h.1
  | some i =>
    refine ⟨rfl, Option.map_congr fun j hj => Function.update_of_ne ?_ _ _⟩
    rintro rfl
    exact h.2 (hj.trans hpath.symm) (by rw [Folder.isFile, hpath]; rfl)

theorem Folder.keeps_rename {path'' : String} (h : path ≠ path') (h' : path ≠ path'') :
    d.Keeps (d.rename path' path'') path := by
  have hname : (d.rename path' path'').names path = d.names path :=
    (Function.update_of_ne h _ _).trans (Function.update_of_ne h' _ _)
  exact ⟨hname, congrArg (Option.map d.files) hname⟩

theorem Folder.Numbered.remove (h : d.Numbered) : (d.remove path).Numbered := by
  intro p i hi
  change Function.update d.names path none p = some i at hi
  by_cases hp : p = path
  · rw [hp, Function.update_self] at hi
    cases hi
  · rw [Function.update_of_ne hp] at hi
    exact h p i hi

theorem Folder.Numbered.create (h : d.Numbered) : (d.create path f).Numbered := by
  intro p i hi
  change Function.update d.names path (some d.next) p = some i at hi
  by_cases hp : p = path
  · rw [hp, Function.update_self] at hi
    cases hi
    exact Nat.lt_succ_self _
  · rw [Function.update_of_ne hp] at hi
    exact Nat.lt_succ_of_lt (h p i hi)

theorem Folder.Numbered.write (h : d.Numbered) : (d.write path f).Numbered := by
  rw [Folder.write]
  split
  · exact h
  · exact h.create

theorem Folder.Numbered.rename (h : d.Numbered) : (d.rename path path').Numbered := by
  intro p i hi
  change Function.update (Function.update d.names path' (d.names path)) path none p = some i at hi
  by_cases hp : p = path
  · rw [hp, Function.update_self] at hi
    cases hi
  · rw [Function.update_of_ne hp] at hi
    by_cases hp' : p = path'
    · rw [hp', Function.update_self] at hi
      exact h path i hi
    · rw [Function.update_of_ne hp'] at hi
      exact h p i hi

/-- What was read is what the file has; its digest is the one found; its stamp is of it. -/
def Look.Ok (sha256 : List UInt8 → String) (contents : String → ℕ × ℕ → List UInt8) (d : Folder)
    (path : String) : Look → Prop
  | opened i read => d.names path = some i ∧ read <+: (d.files i).content
  | found digest => ∃ f, d.file path = some f ∧ sha256 f.content = digest
  | stamped stamp => sha256 (contents path (stamp.bytes, stamp.modifiedMs)) = stamp.sha256

def Stage.Ok (sha256 : List UInt8 → String) (contents : String → ℕ × ℕ → List UInt8) (d : Folder)
    (m : CatalogModel) (file : String) : Stage → Prop
  | here _ look => look.Ok sha256 contents d file
  | arrived look => look.Ok sha256 contents d (part file)
  | finishing => ∀ digest, digestOf (m.verify file) = some digest →
      ∃ f, d.file (part file) = some f ∧ sha256 f.content = digest
  | next | fetching => True

/-- The invariant: every stamp is of what the file has, and so is what every look has come to. -/
structure State.Good (sha256 : List UInt8 → String) (contents : String → ℕ × ℕ → List UInt8)
    (s : State) : Prop where
  numbered : s.folder.Numbered
  faithful : Faithful contents s.folder
  verified : Honest sha256 contents s.verified
  record : ∀ record, s.record = some record → Honest sha256 contents record
  scan : ∀ file check rest look, s.scan = some ⟨(file, check) :: rest, some look⟩ →
    look.Ok sha256 contents s.folder file
  fetch : ∀ m file rest stage, s.fetch = some ⟨m, file :: rest, stage⟩ →
    stage.Ok sha256 contents s.folder m file

theorem Look.Ok.keep {look : Look} (h : look.Ok sha256 contents d path)
    (hkeeps : look.inHand path = some path → d.Keeps d' path) :
    look.Ok sha256 contents d' path := by
  cases look with
  | opened i read =>
    obtain ⟨hname, hfile⟩ := hkeeps rfl
    obtain ⟨hi, hread⟩ := h
    have hsame : d'.files i = d.files i := by
      rw [Folder.file, Folder.file, hname, hi] at hfile
      exact Option.some_inj.mp hfile
    exact ⟨hname.trans hi, hsame ▸ hread⟩
  | found digest =>
    obtain ⟨f, hf, hdigest⟩ := h
    exact ⟨f, (hkeeps rfl).2.trans hf, hdigest⟩
  | stamped stamp => exact h

theorem State.Good.withScan {scan : Option Scan} (h : s.Good sha256 contents)
    (hscan : ∀ file check rest look, scan = some ⟨(file, check) :: rest, some look⟩ →
      look.Ok sha256 contents s.folder file) : ({ s with scan } : State).Good sha256 contents :=
  ⟨h.numbered, h.faithful, h.verified, h.record, hscan, h.fetch⟩

theorem State.Good.withFetch {fetch : Option Fetch} (h : s.Good sha256 contents)
    (hfetch : ∀ m file rest stage, fetch = some ⟨m, file :: rest, stage⟩ →
      stage.Ok sha256 contents s.folder m file) :
    ({ s with fetch } : State).Good sha256 contents :=
  ⟨h.numbered, h.faithful, h.verified, h.record, h.scan, hfetch⟩

/-- The folder changes, but for what is in hand. -/
theorem State.Good.moved (h : s.Good sha256 contents) (hd : d.Numbered)
    (hfaithful : Faithful contents d)
    (hscan : ∀ path, s.scanHand = some path → s.folder.Keeps d path)
    (hfetch : ∀ path, s.fetchHand = some path → s.folder.Keeps d path) :
    ({ s with folder := d } : State).Good sha256 contents := by
  refine ⟨hd, hfaithful, h.verified, h.record, fun file check rest look hs => ?_,
    fun m file rest stage hf => ?_⟩
  · refine (h.scan file check rest look hs).keep fun hhand => hscan file ?_
    change s.scan = _ at hs
    rw [State.scanHand, hs]
    exact hhand
  · have hok := h.fetch m file rest stage hf
    change s.fetch = _ at hf
    rw [State.fetchHand, hf] at hfetch
    cases stage with
    | next => trivial
    | fetching => trivial
    | here size look => exact Look.Ok.keep hok fun hhand => hfetch file hhand
    | arrived look => exact Look.Ok.keep hok fun hhand => hfetch (part file) hhand
    | finishing =>
      intro digest hdigest
      obtain ⟨f, hf, hsha⟩ := hok digest hdigest
      exact ⟨f, (hfetch (part file) rfl).2.trans hf, hsha⟩

theorem Faithful.remove (h : Faithful contents d) : Faithful contents (d.remove path) := by
  intro p f bm hf
  refine h p f bm ?_
  by_cases hp : p = path
  · change (Function.update d.names path none p).map d.files = some f at hf
    rw [hp, Function.update_self] at hf
    cases hf
  · exact (Folder.keeps_remove hp).2.symm.trans hf

/-- What is removed was not in hand. -/
theorem State.Good.removed (h : s.Good sha256 contents) (path : String)
    (hscan : s.scanHand ≠ some path) (hfetch : s.fetchHand ≠ some path) :
    ({ s with folder := s.folder.remove path } : State).Good sha256 contents :=
  h.moved h.numbered.remove h.faithful.remove
    (fun _ hp => Folder.keeps_remove fun heq => hscan (heq ▸ hp))
    fun _ hp => Folder.keeps_remove fun heq => hfetch (heq ▸ hp)

theorem State.Good.recordAs {verified : String → Option Stamp} (h : s.Good sha256 contents)
    (hverified : Honest sha256 contents verified) (how : Written) :
    (s.recordAs how verified).Good sha256 contents := by
  refine ⟨h.numbered, h.faithful, hverified, fun record hrecord => ?_, h.scan, h.fetch⟩
  cases how with
  | whole =>
    cases hrecord
    exact hverified
  | torn => cases hrecord
  | failed => exact h.record record hrecord

theorem State.Good.stamp {file : String} {stamp : Stamp} (h : s.Good sha256 contents)
    (hstamp : sha256 (contents file (stamp.bytes, stamp.modifiedMs)) = stamp.sha256)
    (how : Written) : (s.stamp how file stamp).Good sha256 contents := by
  refine h.recordAs (fun file' stamp' hs => ?_) how
  by_cases hfile : file' = file
  · rw [hfile, Function.update_self] at hs
    cases hs
    exact hfile ▸ hstamp
  · rw [Function.update_of_ne hfile] at hs
    exact h.verified file' stamp' hs

/-- What was read is still what the file has, and at its end it is all of it. -/
theorem State.readOn_ok {i : ℕ} {read : List UInt8} (path : String) (n : ℕ)
    (h : (Look.opened i read).Ok sha256 contents s.folder path) :
    (s.readOn sha256 i read n).Ok sha256 contents s.folder path := by
  obtain ⟨hname, rest, hrest⟩ := h
  rw [State.readOn]
  have hdrop : (s.folder.files i).content.drop read.length = rest := by
    rw [← hrest, List.drop_left]
  rw [hdrop]
  split
  · next hend =>
    have hnil : rest = [] := by
      cases rest with
      | nil => rfl
      | cons b rest => cases hend
    refine ⟨s.folder.files i, by rw [Folder.file, hname]; rfl, ?_⟩
    rw [← hrest, hnil, List.append_nil]
  · refine ⟨hname, ?_⟩
    rw [← hrest]
    exact List.prefix_append_right_inj read |>.mpr (List.take_prefix _ _)

/-- A stamp that is taken of a file with a digest is of that digest. -/
theorem stampOf_ok {file digest : String} {stamp : Stamp} (hfaithful : Faithful contents d)
    (h : (Look.found digest).Ok sha256 contents d file)
    (hstamp : stampOf d file digest = some stamp) :
    (Look.stamped stamp).Ok sha256 contents d file := by
  obtain ⟨f, hf, hdigest⟩ := h
  rw [stampOf, Folder.lengthAndTime, hf, Option.map_eq_some_iff] at hstamp
  obtain ⟨bm, hbm, rfl⟩ := hstamp
  rw [Look.Ok, ← hfaithful file f bm hf hbm]
  exact hdigest

theorem State.Good.unlooked (h : s.Good sha256 contents) (work : List (String × FileCheck)) :
    ({ s with scan := some ⟨work, none⟩ } : State).Good sha256 contents :=
  h.withScan fun _ _ _ _ heq => by cases heq

theorem State.Good.looking {file : String} {look : Look} (h : s.Good sha256 contents)
    (hlook : look.Ok sha256 contents s.folder file) (check : FileCheck)
    (rest : List (String × FileCheck)) :
    ({ s with scan := some ⟨(file, check) :: rest, some look⟩ } : State).Good sha256 contents :=
  h.withScan fun _ _ _ _ heq => by
    cases heq
    exact hlook

theorem State.Good.scanGoesOn (h : s.Good sha256 contents) (n : ℕ) (how : Written) :
    (s.scanGoesOn sha256 n how).Good sha256 contents := by
  rw [State.scanGoesOn]
  split
  · exact h
  · exact h.withScan fun _ _ _ _ heq => by cases heq
  · next file check rest _ =>
    split
    · exact h.unlooked rest
    · next i hi =>
      have hopened : (Look.opened i []).Ok sha256 contents s.folder file := ⟨hi, List.nil_prefix⟩
      exact h.looking hopened check rest
  · next file check rest i read hscan =>
    exact h.looking (State.readOn_ok file n (h.scan _ _ _ _ hscan)) check rest
  · next file check rest digest hscan =>
    split
    · split
      · exact h.unlooked rest
      · next stamp hstamp =>
        exact h.looking (stampOf_ok h.faithful (h.scan _ _ _ _ hscan) hstamp) check rest
    · exact h.unlooked rest
  · next file check rest stamp hscan =>
    exact (h.stamp (h.scan _ _ _ _ hscan) how).unlooked rest

theorem part_ne (file : String) : part file ≠ file := by
  intro heq
  have hlength := congrArg String.length heq
  rw [part, String.length_append] at hlength
  exact absurd hlength (Nat.ne_of_gt (Nat.lt_add_of_pos_right (by decide)))

theorem State.Good.fetchNext (h : s.Good sha256 contents) (m : CatalogModel) (files : List String) :
    (s.fetchAt m files .next).Good sha256 contents :=
  h.withFetch fun _ _ _ _ heq => by
    cases heq
    trivial

theorem State.Good.fetchAt {m : CatalogModel} {file : String} (h : s.Good sha256 contents)
    (stage : Stage) (hstage : stage.Ok sha256 contents s.folder m file)
    (rest : List String) : (s.fetchAt m (file :: rest) stage).Good sha256 contents :=
  h.withFetch fun _ _ _ _ heq => by
    cases heq
    exact hstage

theorem State.Good.fetchNone (h : s.Good sha256 contents) :
    ({ s with fetch := none } : State).Good sha256 contents :=
  h.withFetch fun _ _ _ _ heq => by cases heq

/-- The downloads' thread goes on with a file: what it removes or replaces the scan has not in
hand. -/
theorem State.Good.fetchFile {m : CatalogModel} {file : String} {rest : List String}
    {stage : Stage} (h : s.Good sha256 contents)
    (hfetch : s.fetch = some ⟨m, file :: rest, stage⟩) (n : ℕ) (how : Written)
    (hscan : ∀ path, s.scanHand = some path → path ∉ s.fetchChanges)
    (hfaithful : Faithful contents (s.fetchFile sha256 m file rest n how stage).folder) :
    (s.fetchFile sha256 m file rest n how stage).Good sha256 contents := by
  have hok := h.fetch m file rest stage hfetch
  rw [State.fetchChanges, hfetch] at hscan
  cases stage with
  | next =>
    rw [State.fetchFile]
    split
    · split
      · exact h.fetchNext m rest
      · split
        · exact h.fetchNone
        · next i hi =>
          have hopened : (Look.opened i []).Ok sha256 contents s.folder file :=
            ⟨hi, List.nil_prefix⟩
          exact h.fetchAt (.here _ (.opened i [])) hopened rest
    · exact h.fetchAt .fetching trivial rest
  | fetching =>
    rw [State.fetchFile]
    cases hdigest : digestOf (m.verify file) with
    | none =>
      refine h.fetchAt .finishing (fun digest hsome => ?_) rest
      rw [hdigest] at hsome
      cases hsome
    | some digest =>
      cases hi : s.folder.names (part file) with
      | none => exact h.fetchNone
      | some i =>
        have hopened : (Look.opened i []).Ok sha256 contents s.folder (part file) :=
          ⟨hi, List.nil_prefix⟩
        exact h.fetchAt (.arrived (.opened i [])) hopened rest
  | here size look =>
    cases look with
    | opened i read =>
      exact h.fetchAt (.here size _) (State.readOn_ok file n hok) rest
    | found digest =>
      rw [State.fetchFile]
      split
      · split
        · exact h.fetchNext m rest
        · next stamp hstamp =>
          have hstamped := stampOf_ok h.faithful hok hstamp
          exact h.fetchAt (.here size (.stamped stamp)) hstamped rest
      · next hother =>
        split
        · exact h.fetchNone
        · dsimp only at hscan
          rw [if_neg hother] at hscan
          have hgone := h.fetchNone.removed file
            (fun hp => hscan file hp List.mem_cons_self) fun hp => nomatch hp
          exact hgone.fetchAt .fetching trivial rest
    | stamped stamp => exact (h.stamp hok how).fetchNext m rest
  | arrived look =>
    cases look with
    | opened i read =>
      exact h.fetchAt (.arrived _) (State.readOn_ok (part file) n hok) rest
    | found digest =>
      rw [State.fetchFile]
      split
      · next hsame =>
        refine h.fetchAt .finishing (fun digest' hdigest => ?_) rest
        rw [← hsame] at hdigest
        cases hdigest
        exact hok
      · next hother =>
        dsimp only at hscan
        rw [if_neg hother] at hscan
        exact h.fetchNone.removed (part file)
          (fun hp => hscan (part file) hp List.mem_cons_self) fun hp => nomatch hp
    | stamped stamp => exact h
  | finishing =>
    rw [State.fetchFile] at hfaithful ⊢
    split
    · next hpart =>
      rw [if_pos hpart] at hfaithful
      have hrenamed : Faithful contents (s.folder.rename (part file) file) := by
        dsimp only at hfaithful
        split at hfaithful
        · exact hfaithful
        · exact hfaithful
      have hmoved := h.fetchNone.moved h.numbered.rename hrenamed
        (fun path hp => Folder.keeps_rename (fun heq => hscan path hp (heq ▸ List.mem_cons_self))
          fun heq => hscan path hp (heq ▸ List.mem_cons_of_mem _ List.mem_cons_self))
        fun path hp => nomatch hp
      dsimp only
      split
      · exact hmoved.fetchNext m rest
      · next digest hdigest =>
        obtain ⟨f, hf, hsha⟩ := hok digest hdigest
        have hfound : (Look.found digest).Ok sha256 contents
            (s.folder.rename (part file) file) file := by
          refine ⟨f, Eq.trans (congrArg (Option.map s.folder.files) ?_) hf, hsha⟩
          exact (Function.update_of_ne (part_ne file).symm _ _).trans (Function.update_self _ _ _)
        exact hmoved.fetchAt (.here 0 (.found digest)) hfound rest
    · exact h.fetchNone

theorem State.Good.withDeleting (h : s.Good sha256 contents)
    (deleting : Option (List String × List String)) :
    ({ s with deleting } : State).Good sha256 contents :=
  ⟨h.numbered, h.faithful, h.verified, h.record, h.scan, h.fetch⟩

/-- **A step** keeps the stamps. -/
theorem State.Good.step {a : Act} (h : s.Good sha256 contents)
    (hmeets : a.Meets sha256 models contents s) :
    (a.apply sha256 models s).Good sha256 contents := by
  obtain ⟨hscan, hfetch, hrecord, hfaithful⟩ := hmeets
  -- What another program or the deletion touches no thread has in hand.
  have hhand : (∀ n how, a ≠ .fetchGoesOn n how) → ∀ path, s.fetchHand = some path →
      ¬a.Touches s path := fun hne path hp =>
    (hfetch path hp).resolve_left fun ⟨n, how, heq⟩ => hne n how heq
  cases a with
  | scanPresent skipped =>
    change (s.scanPresent models skipped).Good sha256 contents
    rw [State.scanPresent]
    split
    · exact h
    · exact h.unlooked _
  | scanGoesOn n how => exact h.scanGoesOn n how
  | scanFails =>
    change s.scanFails.Good sha256 contents
    rw [State.scanFails]
    split
    · exact h.unlooked _
    · exact h
  | download m =>
    change (s.download m).Good sha256 contents
    rw [State.download]
    split
    · exact h
    · exact h.fetchNext m m.files
  | fetchGoesOn n how =>
    change (s.fetchGoesOn sha256 n how).Good sha256 contents
    change Faithful contents (s.fetchGoesOn sha256 n how).folder at hfaithful
    rw [State.fetchGoesOn] at hfaithful ⊢
    cases hf : s.fetch with
    | none => exact h
    | some fetch =>
      rw [hf] at hfaithful
      obtain ⟨m, files, stage⟩ := fetch
      cases files with
      | nil => exact h.fetchNone
      | cons file rest => exact h.fetchFile hf n how hscan hfaithful
  | fetchWrites f =>
    change (s.fetchWrites f).Good sha256 contents
    change Faithful contents (s.fetchWrites f).folder at hfaithful
    rw [State.fetchWrites] at hfaithful ⊢
    split
    · next m file rest hf =>
      have htouch : ∀ path, s.scanHand = some path → ¬s.folder.Same path (part file) :=
        fun path hp hsame => hscan path hp ⟨m, file, rest, hf, hsame⟩
      have hnone : s.fetchHand = none := by rw [State.fetchHand, hf]
      cases f with
      | none =>
        refine h.removed _ (fun hp => htouch _ hp (.inl rfl)) ?_
        rw [hnone]
        exact nofun
      | some f =>
        rw [hf] at hfaithful
        refine h.moved h.numbered.write hfaithful (fun path hp => ?_) ?_
        · exact Folder.keeps_write h.numbered (htouch path hp)
        · rw [hnone]
          exact nofun
    · exact h
  | fetchFails => exact h.fetchNone
  | delete m =>
    change (s.delete m).Good sha256 contents
    rw [State.delete]
    split
    · exact h
    · exact h.withDeleting _
  | deleteGoesOn how =>
    change (s.deleteGoesOn how).Good sha256 contents
    rw [State.deleteGoesOn]
    split
    · exact h
    · next path paths files hdeleting =>
      have hgone := h.removed path (fun hp => hscan path hp ⟨paths, files, hdeleting⟩)
        fun hp => hhand (fun _ _ => nofun) path hp ⟨paths, files, hdeleting⟩
      exact hgone.withDeleting _
    · next files _ =>
      refine (h.recordAs (fun file stamp hstamp => ?_) how).withDeleting none
      split at hstamp
      · cases hstamp
      · exact h.verified file stamp hstamp
  | deleteFails => exact h.withDeleting none
  | restart =>
    refine ⟨h.numbered, h.faithful, ?_, h.record, nofun, nofun⟩
    intro file stamp hstamp
    change s.record.getD (fun _ => none) file = some stamp at hstamp
    cases hr : s.record with
    | none =>
      rw [hr] at hstamp
      cases hstamp
    | some record =>
      rw [hr] at hstamp
      exact h.record record hr file stamp hstamp
  | create path f =>
    exact h.moved h.numbered.create hfaithful
      (fun p hp => Folder.keeps_create h.numbered (hscan p hp))
      fun p hp => Folder.keeps_create h.numbered (hhand (fun _ _ => nofun) p hp)
  | write path f =>
    exact h.moved h.numbered.write hfaithful
      (fun p hp => Folder.keeps_write h.numbered (hscan p hp))
      fun p hp => Folder.keeps_write h.numbered (hhand (fun _ _ => nofun) p hp)
  | remove path =>
    exact h.removed path (fun hp => hscan path hp rfl) fun hp => hhand (fun _ _ => nofun) path hp rfl
  | rename path path' =>
    refine h.moved h.numbered.rename hfaithful (fun p hp => ?_) fun p hp => ?_
    · have hne := hscan p hp
      exact Folder.keeps_rename (fun heq => hne (.inl heq)) fun heq => hne (.inr heq)
    · have hne := hhand (fun _ _ => nofun) p hp
      exact Folder.keeps_rename (fun heq => hne (.inl heq)) fun heq => hne (.inr heq)
  | writeRecord record =>
    refine ⟨h.numbered, h.faithful, h.verified, fun r hr => ?_, h.scan, h.fetch⟩
    change record = some r at hr
    subst hr
    exact hrecord r rfl

/-- A file that its stamp says is what it must be is so. -/
theorem State.Good.holds_digest {file digest : String} {check : Option FileCheck}
    (h : s.Good sha256 contents) (hholds : holds s.verified s.folder file check = true)
    (hdigest : digestOf check = some digest) :
    ∃ f, s.folder.file file = some f ∧ sha256 f.content = digest := by
  rw [holds, hdigest, Folder.lengthAndTime] at hholds
  cases hf : s.folder.file file with
  | none =>
    rw [hf] at hholds
    cases hholds
  | some f =>
    refine ⟨f, rfl, ?_⟩
    rw [hf, Option.bind_some] at hholds
    cases hbm : f.lengthAndTime with
    | none =>
      rw [hbm] at hholds
      cases hholds
    | some bm =>
      rw [hbm] at hholds
      cases hstamp : s.verified file with
      | none =>
        rw [hstamp] at hholds
        cases hholds
      | some stamp =>
        rw [hstamp] at hholds
        obtain ⟨hbytes, htime, hsha⟩ := of_decide_eq_true hholds
        have hhonest := h.verified file stamp hstamp
        rw [hbytes, htime, hsha] at hhonest
        rw [h.faithful file f bm hf hbm]
        exact hhonest

theorem State.Good.published (h : s.Good sha256 contents) : s.Published sha256 models := by
  intro id m hm hpath hinstalled file hfile digest hdigest
  rw [State.installedPath, hm] at hinstalled
  dsimp only at hinstalled
  rw [hpath] at hinstalled
  dsimp only at hinstalled
  split at hinstalled
  · next hall => exact h.holds_digest (hall.2.2 file hfile) hdigest
  · cases hinstalled

theorem good_start (hd : d.Numbered) (hfaithful : Faithful contents d) :
    (State.start d).Good sha256 contents :=
  ⟨hd, hfaithful, fun _ _ h => (nomatch h), fun _ h => (nomatch h), fun _ _ _ _ h => (nomatch h),
    fun _ _ _ _ h => (nomatch h)⟩

end Steps

/-- **A model is installed only when its files are the published ones**, after every run whose acts
meet their condition. -/
theorem installed_published {sha256 : List UInt8 → String} {models : List CatalogModel}
    {contents : String → ℕ × ℕ → List UInt8} {d : Folder} {s : State} (hd : d.Numbered)
    (hfaithful : Faithful contents d)
    (h : (checks sha256 models).Runs (Act.Meets sha256 models contents) (.start d) s) :
    s.Published sha256 models :=
  (h.invariant (good_start hd hfaithful) fun _ _ hgood _ hmeets => hgood.step hmeets).published

/-! ### A file that is changed while it is looked at -/

/-- A digest that says the content. -/
def plainDigest (content : List UInt8) : String :=
  String.ofList (content.map Char.ofUInt8)

/-- A model of one file, and the folder with the file in it. -/
def oneModel : List CatalogModel :=
  [⟨"a", "example/a", none, ["a.gguf"], fun _ => some ⟨1, plainDigest [1]⟩⟩]

def oneFile : Folder :=
  ⟨fun path => if path = "a.gguf" then some 0 else none, fun _ => ⟨[1], 1000000⟩, 1⟩

/-- What a file contains by when it was modified. -/
def changing (_ : String) (bm : ℕ × ℕ) : List UInt8 :=
  if bm.2 = 1 then [1] else [2]

/-- Other programs leave the record alone, and a file whose content changes changes its length or
its time. -/
def Act.Fair (s : State) (a : Act) : Prop :=
  (∀ record, a ≠ .writeRecord record) ∧
    Faithful changing (a.apply plainDigest oneModel s).folder

section Changing

variable {s : State} {d : Folder}

theorem plainDigest_injective : Function.Injective plainDigest := by
  intro xs ys h
  refine List.map_injective_iff.mpr (fun b c hbc => ?_) (String.ofList_injective h)
  exact UInt8.toUInt32_inj.mp (congrArg Char.val hbc)

theorem faithful_changing (h : ∀ i, d.files i = ⟨[1], 1000000⟩ ∨ d.files i = ⟨[2], 2000000⟩) :
    Faithful changing d := by
  intro path f bm hf hbm
  obtain ⟨i, -, rfl⟩ := Option.map_eq_some_iff.mp hf
  obtain hi | hi := h i
  · rw [hi] at hbm ⊢
    cases hbm
    rfl
  · rw [hi] at hbm ⊢
    cases hbm
    rfl

/-- The scanning thread leaves the folder. -/
theorem scanGoesOn_folder (s : State) (n : ℕ) (how : Written) :
    ((Act.scanGoesOn n how).apply plainDigest oneModel s).folder = s.folder := by
  change (s.scanGoesOn plainDigest n how).folder = s.folder
  rw [State.scanGoesOn]
  split
  · rfl
  · rfl
  · split <;> rfl
  · rfl
  · split
    · split <;> rfl
    · rfl
  · rfl

theorem scanPresent_folder (s : State) (skipped : List String) :
    ((Act.scanPresent skipped).apply plainDigest oneModel s).folder = s.folder := by
  change (s.scanPresent oneModel skipped).folder = s.folder
  rw [State.scanPresent]
  split <;> rfl

theorem fair_present (hs : Faithful changing s.folder) : (Act.scanPresent []).Fair s :=
  ⟨nofun, (scanPresent_folder s []).symm ▸ hs⟩

theorem fair_scan (hs : Faithful changing s.folder) : (Act.scanGoesOn 0 .whole).Fair s :=
  ⟨nofun, (scanGoesOn_folder s 0 .whole).symm ▸ hs⟩

/-- The scan's own acts touch nothing. -/
theorem meets_present (h : (Act.scanPresent []).Fair s) :
    (Act.scanPresent []).Meets plainDigest oneModel changing s :=
  ⟨fun _ _ h => h, fun _ _ => .inr fun h => h, nofun, h.2⟩

theorem meets_scan (h : (Act.scanGoesOn 0 .whole).Fair s) :
    (Act.scanGoesOn 0 .whole).Meets plainDigest oneModel changing s :=
  ⟨fun _ _ h => h, fun _ _ => .inr fun h => h, nofun, h.2⟩

theorem fair_write (hs : s.folder = oneFile) :
    (Act.write "a.gguf" ⟨[2], 2000000⟩).Fair s := by
  refine ⟨nofun, ?_⟩
  change Faithful changing (s.folder.write "a.gguf" ⟨[2], 2000000⟩)
  rw [hs]
  refine faithful_changing fun i => ?_
  by_cases hi : i = 0
  · subst hi
    exact .inr rfl
  · exact .inl (Function.update_of_ne hi _ _)

theorem numbered_oneFile : oneFile.Numbered := by
  intro path i hi
  rw [oneFile] at hi
  dsimp only at hi
  split at hi
  · cases hi
    exact Nat.zero_lt_one
  · cases hi

theorem faithful_oneFile : Faithful changing oneFile :=
  faithful_changing fun _ => .inl rfl

end Changing

open Library

/-- The file is read to its end, stamped and recorded. -/
theorem installed_published_one : ((checks plainDigest oneModel).run (.start oneFile)
    ([.scanPresent [], .scanGoesOn 0 .whole, .scanGoesOn 0 .whole, .scanGoesOn 0 .whole,
      .scanGoesOn 0 .whole, .scanGoesOn 0 .whole] : List Act)).Published plainDigest oneModel := by
  have h0 := fair_present (s := .start oneFile) faithful_oneFile
  have h1 := fair_scan h0.2
  have h2 := fair_scan h1.2
  have h3 := fair_scan h2.2
  have h4 := fair_scan h3.2
  have h5 := fair_scan h4.2
  exact installed_published numbered_oneFile faithful_oneFile (System.runs_of_list
    ⟨trivial, meets_present h0, trivial, meets_scan h1, trivial, meets_scan h2, trivial,
      meets_scan h3, trivial, meets_scan h4, trivial, meets_scan h5, trivial⟩)

/-- The file is read to its end, and written before its stamp is taken. -/
def changedMeanwhile : List Act :=
  [.scanPresent [], .scanGoesOn 0 .whole, .scanGoesOn 0 .whole, .scanGoesOn 0 .whole,
    .write "a.gguf" ⟨[2], 2000000⟩, .scanGoesOn 0 .whole, .scanGoesOn 0 .whole]

theorem fair_changedMeanwhile : (checks plainDigest oneModel).Runs Act.Fair (.start oneFile)
    ((checks plainDigest oneModel).run (.start oneFile) changedMeanwhile) := by
  have h0 := fair_present (s := .start oneFile) faithful_oneFile
  have h1 := fair_scan h0.2
  have h2 := fair_scan h1.2
  have h3 := fair_scan h2.2
  have h4 := fair_write ((scanGoesOn_folder _ 0 .whole).trans ((scanGoesOn_folder _ 0 .whole).trans
    ((scanGoesOn_folder _ 0 .whole).trans (scanPresent_folder (.start oneFile) []))))
  have h5 := fair_scan h4.2
  have h6 := fair_scan h5.2
  exact System.runs_of_list ⟨trivial, h0, trivial, h1, trivial, h2, trivial, h3, trivial, h4,
    trivial, h5, trivial, h6, trivial⟩

/-- The stamp is of what was written: the model counts as installed. -/
theorem installed_changed : Function.Injective plainDigest ∧
    ¬∀ s, (checks plainDigest oneModel).Runs Act.Fair (.start oneFile) s →
      s.Published plainDigest oneModel := by
  refine ⟨plainDigest_injective, fun h => ?_⟩
  have hinstalled : (((checks plainDigest oneModel).run (.start oneFile)
      changedMeanwhile).installedPath oneModel "a").isSome = true := by decide +kernel
  have hcontent : (((checks plainDigest oneModel).run (.start oneFile)
      changedMeanwhile).folder.file "a.gguf").map File.content = some [2] := by decide +kernel
  have hpublished := h _ fair_changedMeanwhile "a"
    ⟨"a", "example/a", none, ["a.gguf"], fun _ => some ⟨1, plainDigest [1]⟩⟩ rfl rfl hinstalled
    "a.gguf" List.mem_cons_self (plainDigest [1]) (by decide +kernel)
  obtain ⟨f, hf, hdigest⟩ := hpublished
  rw [hf, Option.map_some, plainDigest_injective hdigest] at hcontent
  cases hcontent

end Checks

end Models

end LocalSpace
