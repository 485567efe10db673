import LocalSpace.Resuming
import LocalSpace.Verified
import LocalSpace.Library.Runs

/-!
# A model arrives

`fetch_all` of `models.rs`: each file of a model that is not here yet is fetched into its part, held
to its digest where it has one, and given its name. A server is honest about a file when what it
sends is of that file, cut anywhere or not; a cut that the connection does not show is seen by the
file's length alone, and a finished file without a digest is taken as it is.
-/

namespace LocalSpace

namespace Models

namespace Resuming

open Library Checks

/-! ### An honest server -/

/-- What an answer's body holds of a file, and what length it announces. -/
structure Body (file : List UInt8) (start : ℕ) (length : Option ℕ) (pieces : List (List UInt8)) :
    Prop where
  body : pieces.flatten <+: file.drop start
  length : ∀ len ∈ length, len = file.length - start

/-- A server that answers honestly about a file: with all of it or the rest from the byte asked for,
cut or not, with a refusal where nothing lies beyond what was asked for, or with an error. -/
def Honest (file : List UInt8) (s : Fetching) : Answer → Prop
  | .answered 206 length pieces _ => Body file s.held.length length pieces
  | .answered 200 length pieces _ => Body file 0 length pieces
  | .answered 416 _ _ _ => 0 < s.held.length ∧ file.length ≤ s.held.length
  | _ => True

/-- Where nothing says how long the file is, an answer that ends by itself was not cut. -/
def Shows (file : List UInt8) (s : Fetching) : Answer → Prop
  | .answered 206 length pieces .ends =>
    s.known true length = none → pieces.flatten = file.drop s.held.length
  | .answered 200 length pieces .ends => s.known false length = none → pieces.flatten = file
  | _ => True

/-- What is here is the file's beginning, and the file's length is known truly or not at all. -/
structure Fetching.Begins (file : List UInt8) (s : Fetching) : Prop where
  part : s.held <+: file
  announced : ∀ len ∈ s.announced, len = file.length

/-- What `fetch_file` leaves: the file's beginning, and all of it where it says so. -/
structure Leaves (file : List UInt8) (part : Option (List UInt8)) (result : Result) : Prop where
  begins : part.getD [] <+: file
  whole : ∀ n, result = .ok n → part = some file

def Outcome.Begins (file : List UInt8) : Outcome → Prop
  | .goes s => s.Begins file
  | .returns part result => Leaves file part result

section Rounds

variable {file : List UInt8} {s : Fetching} {attempts : ℕ} {turn : Turn} {length : Option ℕ}
  {pieces : List (List UInt8)} {ending : Ending} {resumed : Bool}

theorem Fetching.Begins.finish (h : s.Begins file) {part : List UInt8} (hpart : s.part = some part)
    (hwhole : s.announced = none → part = file) : s.finish.Begins file := by
  have hheld : s.held = part := by
    rw [Fetching.held, hpart, Option.getD_some]
  rw [Fetching.finish, hheld, hpart]
  rcases hannounced : s.announced with _ | len
  · refine ⟨hheld ▸ h.part, fun n _ => ?_⟩
    rw [hwhole hannounced]
  · dsimp only
    split_ifs with hlength
    · exact ⟨List.nil_prefix, fun n hn => by simp at hn⟩
    · refine ⟨hheld ▸ h.part, fun n _ => ?_⟩
      have hlen := h.announced len hannounced
      have hpart : part <+: file := hheld ▸ h.part
      rw [hpart.eq_of_length ((not_not.mp hlength).trans hlen)]

theorem Fetching.Begins.tried (h : s.Begins file) (progressed : Bool) :
    (s.tried attempts progressed).Begins file := by
  have hgaveUp : (Outcome.returns s.part .gaveUp).Begins file :=
    ⟨h.part, fun n hn => by simp at hn⟩
  rw [Fetching.tried]
  split_ifs
  · exact hgaveUp
  · exact ⟨h.part, h.announced⟩
  · exact hgaveUp
  · exact ⟨h.part, h.announced⟩

theorem Fetching.Begins.kept (h : s.Begins file) (resumed : Bool) :
    file = s.kept resumed ++ file.drop (s.startOf resumed) := by
  rcases resumed with _ | _
  · rfl
  · obtain ⟨rest, rfl⟩ := h.part
    simp [Fetching.kept, Fetching.startOf]

/-- Each moment of an honest answer's writing: the part is the file's beginning. -/
theorem Fetching.Begins.moment (h : s.Begins file)
    (hbody : Body file (s.startOf resumed) length pieces) (k : ℕ) :
    s.kept resumed ++ (pieces.take k).flatten <+: file := by
  rw [h.kept resumed]
  refine (List.prefix_append_right_inj _).mpr (List.IsPrefix.trans ?_ hbody.body)
  exact ⟨(pieces.drop k).flatten, by rw [← List.flatten_append, List.take_append_drop]⟩

theorem Fetching.Begins.known (h : s.Begins file) (hfile : file.length < 2 ^ 64)
    (hbody : Body file (s.startOf resumed) length pieces) :
    ∀ len ∈ s.known resumed length, len = file.length := by
  have hstart : s.startOf resumed ≤ file.length := by
    rcases resumed with _ | _
    · exact Nat.zero_le _
    · exact h.part.length_le
  intro len hlen
  rw [Fetching.known] at hlen
  rcases hannounced : s.announced with _ | announced
  · rw [hannounced, Option.none_or] at hlen
    obtain ⟨sent, hsent, rfl⟩ := Option.map_eq_some_iff.mp hlen
    rw [hbody.length sent hsent, Nat.add_sub_of_le hstart, Nat.mod_eq_of_lt hfile]
  · rw [hannounced, Option.some_or, Option.mem_def, Option.some.injEq] at hlen
    rw [← hlen]
    exact h.announced announced hannounced

/-- **An honest answer keeps the part the file's beginning**, and ends with the whole file. -/
theorem Fetching.Begins.write (h : s.Begins file) (hfile : file.length < 2 ^ 64)
    (hbody : Body file (s.startOf resumed) length pieces) {stopAfter : Option ℕ}
    (hshows : ending = .ends → s.known resumed length = none →
      s.kept resumed ++ pieces.flatten = file) :
    (s.write attempts stopAfter resumed length pieces ending).Begins file := by
  have hread : s.kept resumed ++ (Fetching.taken stopAfter pieces).1.flatten <+: file := by
    rcases stopAfter with _ | k
    · simpa [Fetching.taken] using h.moment hbody pieces.length
    · rw [Fetching.taken]
      split_ifs
      · exact h.moment hbody (k + 1)
      · simpa using h.moment hbody pieces.length
  rw [Fetching.write]
  dsimp only
  rcases hall : (Fetching.taken stopAfter pieces).2 with _ | _
  · rw [if_pos (by simp)]
    exact ⟨hread, fun n hn => by simp at hn⟩
  rw [taken_all hall] at hread ⊢
  rw [if_neg (by simp)]
  have hafter : Fetching.Begins file ⟨some (s.kept resumed ++ pieces.flatten),
      s.known resumed length, s.fruitless, s.begunAgain⟩ :=
    ⟨hread, h.known hfile hbody⟩
  rcases ending with _ | _ | _
  · dsimp only
    split_ifs with hshort
    · exact hafter.tried _
    · exact hafter.finish rfl (hshows rfl)
  · exact hafter.tried _
  · exact ⟨hread, fun n hn => by simp at hn⟩

/-- One round with an honest server. -/
theorem Fetching.Begins.step (h : s.Begins file) (hfile : file.length < 2 ^ 64)
    (hhonest : Honest file s turn.answer) (hshows : Shows file s turn.answer) :
    (s.step attempts turn).Begins file := by
  rw [Fetching.step]
  split
  · exact ⟨h.part, fun n hn => by simp at hn⟩
  split
  · rename_i hwhole
    rcases hpart : s.part with _ | part
    · simp [Fetching.held, hpart] at hwhole
    · exact h.finish hpart (by simp [hwhole.2])
  split
  · exact h.tried _
  · rename_i length pieces ending hanswer
    rw [hanswer] at hhonest hshows
    have hbody : Body file (s.startOf true) length pieces := hhonest
    refine h.write hfile hbody fun hends hnone => ?_
    subst hends
    rw [hshows hnone]
    exact (h.kept true).symm
  · rename_i length pieces ending hanswer
    rw [hanswer] at hhonest hshows
    have hbody : Body file (s.startOf false) length pieces := hhonest
    refine h.write hfile hbody fun hends hnone => ?_
    subst hends
    exact hshows hnone
  · rename_i hanswer
    rw [hanswer] at hhonest
    obtain ⟨hpos, hlong⟩ := hhonest
    split_ifs
    · exact ⟨List.nil_prefix, h.announced⟩
    · rcases hpart : s.part with _ | part
      · simp [Fetching.held, hpart] at hpos
      · have hheld : s.held = part := by
          rw [Fetching.held, hpart, Option.getD_some]
        refine h.finish hpart fun _ => ?_
        rw [← hheld]
        exact h.part.eq_of_length (Nat.le_antisymm h.part.length_le hlong)
  · exact ⟨h.part, fun n hn => by simp at hn⟩

end Rounds

/-! ### All of a model's files -/

/-- What the downloads' thread is at: nothing, the next file, the rounds of one, or one whose part
`fetch_file` gave as whole. -/
inductive Phase where
  | idle
  | next
  | fetching (f : Fetching)
  | arrived

/-- The models folder, the stamps of its files, the files still to come, and what `fetch_all` told
at last: whether it gave `Ok`. -/
structure Arrival where
  folder : String → Option File
  verified : String → Option Stamp
  todo : List String
  phase : Phase
  told : Option Bool

inductive Act where
  | start
  | look
  | round (turn : Turn) (modified : ℤ)
  | settle
  -- An error of the disk, or the end of Core.
  | quit

namespace Arrival

variable (sha256 : List UInt8 → String) (m : CatalogModel) (attempts : ℕ) (a : Arrival)

/-- `holds`, of a file that is here. -/
def holdsHere (file : String) (f : File) (digest : String) : Bool :=
  match f.lengthAndTime with
  | none => false
  | some (bytes, modifiedMs) => (a.verified file).any fun stamp =>
      stamp.bytes = bytes ∧ stamp.modifiedMs = modifiedMs ∧ stamp.sha256 = digest

/-- `stamp`, of a file as it is. -/
def stamped (file : String) (f : File) (digest : String) : String → Option Stamp :=
  match f.lengthAndTime with
  | none => a.verified
  | some (bytes, modifiedMs) =>
    Function.update a.verified file (some ⟨bytes, modifiedMs, digest⟩)

def fail : Arrival :=
  { a with phase := .idle, told := some false }

/-- The file is fetched, from what its part holds. -/
def fetches (file : String) : Arrival :=
  { a with
    phase := .fetching (.start (m.verify file) ((a.folder (part file)).map File.content)) }

/-- A file that is here already counts when it is the published one. -/
@[grind =]
def lookAt (file : String) (rest : List String) (f : File) : Arrival :=
  match digestOf (m.verify file) with
  | none => { a with todo := rest }
  | some digest =>
    if a.holdsHere file f digest then { a with todo := rest }
    else if sha256 f.content = digest then
      { a with todo := rest, verified := a.stamped file f digest }
    else if (m.verify file).any fun check => f.content.length < check.bytes then a.fail
    else { a with folder := Function.update a.folder file none }.fetches m file

/-- The part takes the file's name, where it is the published file. -/
@[grind =]
def settleAs (file : String) (rest : List String) (f : File) : Arrival :=
  let renamed := Function.update (Function.update a.folder file (some f)) (part file) none
  match digestOf (m.verify file) with
  | none => { a with folder := renamed, todo := rest, phase := .next }
  | some digest =>
    if sha256 f.content = digest then
      { a with
        folder := renamed, todo := rest, phase := .next, verified := a.stamped file f digest }
    else { a with folder := Function.update a.folder (part file) none }.fail

/-- The part as a round leaves it. -/
@[grind =]
def leaves (file : String) (content : Option (List UInt8)) (modified : ℤ) : Arrival :=
  let f := content.map fun content => ⟨content, modified⟩
  { a with folder := Function.update a.folder (part file) f }

/-- The next file of the model is looked for, or all of them were seen to. -/
@[grind =]
def looks : Arrival :=
  match a.todo with
  | [] => { a with phase := .idle, told := some true }
  | file :: rest =>
    match a.folder file, a.folder (part file) with
    | some f, none => a.lookAt sha256 m file rest f
    | _, _ => a.fetches m file

@[grind =]
def rounds (f : Fetching) (file : String) (turn : Turn) (modified : ℤ) : Arrival :=
  match f.step attempts turn with
  | .goes f => { a.leaves file f.part modified with phase := .fetching f }
  | .returns content (.ok _) => { a.leaves file content modified with phase := .arrived }
  | .returns content _ => (a.leaves file content modified).fail

@[grind =]
def settles (file : String) (rest : List String) : Arrival :=
  match a.folder (part file) with
  | none => a.fail
  | some f => a.settleAs sha256 m file rest f

@[grind =]
def step : Act → Arrival
  | .start =>
    match a.phase with
    | .idle => { a with todo := m.files, phase := .next, told := none }
    | _ => a
  | .look =>
    match a.phase with
    | .next => a.looks sha256 m
    | _ => a
  | .round turn modified =>
    match a.phase, a.todo with
    | .fetching f, file :: _ => a.rounds attempts f file turn modified
    | _, _ => a
  | .settle =>
    match a.phase, a.todo with
    | .arrived, file :: rest => a.settles sha256 m file rest
    | _, _ => a
  | .quit => { a with phase := .idle, told := none }

end Arrival

/-- Downloads of a model by a thread of their own. -/
def arrivals (sha256 : List UInt8 → String) (m : CatalogModel) (attempts : ℕ) :
    System Arrival Act :=
  ⟨fun a act => a.step sha256 m attempts act, fun _ _ => True⟩

/-- The published files of a model: the catalog's lengths and digests are theirs, and no file has
another's part as its name. -/
structure Published (sha256 : List UInt8 → String) (m : CatalogModel)
    (published : String → List UInt8) : Prop where
  lengths : ∀ file ∈ m.files, (published file).length < 2 ^ 64
  bytes : ∀ file ∈ m.files, ∀ check ∈ m.verify file, check.bytes = (published file).length
  digests : ∀ file ∈ m.files, ∀ digest ∈ digestOf (m.verify file),
    digest = sha256 (published file)
  parts : ∀ file ∈ m.files, part file ∉ m.files

/-- Nothing but a published file has its digest. -/
def NoCollision (sha256 : List UInt8 → String) (m : CatalogModel)
    (published : String → List UInt8) : Prop :=
  ∀ file ∈ m.files, ∀ content, sha256 content = sha256 (published file) → content = published file

/-- The server is honest about the file that is fetched, and a cut shows. -/
def Act.Honest (published : String → List UInt8) (a : Arrival) : Act → Prop
  | .round turn _ => ∀ f file rest, a.phase = .fetching f → a.todo = file :: rest →
    Resuming.Honest (published file) f turn.answer ∧ Shows (published file) f turn.answer
  | _ => True

/-! ### What a step keeps -/

section Steps

variable {sha256 : List UInt8 → String} {m : CatalogModel} {attempts : ℕ} {a : Arrival} {act : Act}
  {published : String → List UInt8} {file : String} {f : File}

theorem part_injective : Function.Injective part := by
  intro file file' h
  have hlist := congrArg String.toList h
  rw [part, part, String.toList_append, String.toList_append] at hlist
  exact String.toList_injective (List.append_cancel_right hlist)

/-- A finished file is the published one, as far as a digest tells, and without one it is. -/
def Right (sha256 : List UInt8 → String) (m : CatalogModel) (published : String → List UInt8)
    (file : String) (f : File) : Prop :=
  (digestOf (m.verify file) = none → f.content = published file) ∧
    ∀ digest ∈ digestOf (m.verify file), sha256 f.content = digest

/-- What holds of the folder and the stamps, whatever the thread is at: parts are their files'
beginnings, a stamp that holds is true, and a file without a digest is the published one. -/
structure Arrival.Kept (sha256 : List UInt8 → String) (m : CatalogModel)
    (published : String → List UInt8) (a : Arrival) : Prop where
  parts : ∀ file ∈ m.files, ∀ f, a.folder (part file) = some f → f.content <+: published file
  files : ∀ file ∈ m.files, ∀ f, a.folder file = some f →
    (∀ digest ∈ digestOf (m.verify file), a.holdsHere file f digest = true →
      sha256 f.content = digest) ∧
    (digestOf (m.verify file) = none → f.content = published file)

/-- A file of the model is here under its own name, and is the published one. -/
def Arrival.Here (published : String → List UInt8) (a : Arrival) (file : String) : Prop :=
  ∃ f, a.folder file = some f ∧ f.content = published file

/-- And what the thread is at: what it was through with is here, the round's part is the folder's,
and `Ok` was told of all files. -/
structure Arrival.Good (sha256 : List UInt8 → String) (m : CatalogModel)
    (published : String → List UInt8) (a : Arrival) : Prop
    extends a.Kept sha256 m published where
  done : a.phase ≠ .idle → ∃ before, m.files = before ++ a.todo ∧
    ∀ file ∈ before, a.Here published file
  fetching : ∀ f, a.phase = .fetching f → ∀ file rest, a.todo = file :: rest →
    f.part = (a.folder (part file)).map File.content ∧ f.Begins (published file)
  arrived : a.phase = .arrived → ∀ file rest, a.todo = file :: rest →
    ∃ f, a.folder (part file) = some f ∧ f.content = published file
  told : a.told = some true → a.phase = .idle ∧ ∀ file ∈ m.files, a.Here published file

theorem right_of_content (hpublished : Published sha256 m published) (hfile : file ∈ m.files)
    (h : f.content = published file) :
    Right sha256 m published file f :=
  ⟨fun _ => h, fun digest hdigest => by rw [h, hpublished.digests file hfile digest hdigest]⟩

/-- The folder's part of the invariant, where each part that is new is a beginning, and each
finished file that is new, or whose stamp is, is right. -/
theorem Arrival.Kept.of {b : Arrival} (h : a.Kept sha256 m published)
    (hparts : ∀ file ∈ m.files, ∀ f, b.folder (part file) = some f →
      a.folder (part file) = some f ∨ f.content <+: published file)
    (hfiles : ∀ file ∈ m.files, ∀ f, b.folder file = some f →
      (a.folder file = some f ∧ b.verified file = a.verified file) ∨
        Right sha256 m published file f) :
    b.Kept sha256 m published where
  parts file hfile f hf := (hparts file hfile f hf).elim (h.parts file hfile f) id
  files file hfile f hf := by
    rcases hfiles file hfile f hf with ⟨hsame, hverified⟩ | hright
    · have hold := h.files file hfile f hsame
      simpa only [Arrival.holdsHere, hverified] using hold
    · exact ⟨fun digest hdigest _ => hright.2 digest hdigest, hright.1⟩

variable (hpublished : Published sha256 m published)

include hpublished

theorem part_ne_of_mem {file' : String} (hfile' : file' ∈ m.files) (hfile : file ∈ m.files) :
    file' ≠ part file := by
  rintro rfl
  exact hpublished.parts file hfile hfile'

/-- A part that is written anew, or removed. -/
theorem Arrival.Kept.leaves (h : a.Kept sha256 m published) (hfile : file ∈ m.files)
    {content : Option (List UInt8)} (modified : ℤ) (hcontent : content.getD [] <+: published file) :
    (a.leaves file content modified).Kept sha256 m published := by
  refine h.of (fun file' hfile' f hf => ?_) fun file' hfile' f hf => Or.inl ⟨?_, rfl⟩
  · rw [Arrival.leaves] at hf
    by_cases hsame : part file' = part file
    · obtain rfl := part_injective hsame
      dsimp only at hf
      rw [Function.update_self] at hf
      obtain ⟨c, hc, rfl⟩ := Option.map_eq_some_iff.mp hf
      rw [hc] at hcontent
      exact Or.inr hcontent
    · dsimp only at hf
      rw [Function.update_of_ne hsame] at hf
      exact Or.inl hf
  · rw [Arrival.leaves] at hf
    dsimp only at hf
    rwa [Function.update_of_ne (part_ne_of_mem hpublished hfile' hfile)] at hf

theorem Arrival.here_leaves (hfile : file ∈ m.files) {content : Option (List UInt8)} {modified : ℤ}
    {file' : String} (hfile' : file' ∈ m.files) :
    (a.leaves file content modified).Here published file' ↔ a.Here published file' := by
  rw [Arrival.Here, Arrival.Here, Arrival.leaves]
  dsimp only
  rw [Function.update_of_ne (part_ne_of_mem hpublished hfile' hfile)]

omit hpublished in
/-- The file that is seen to is one of the model's, and those before it are here. -/
theorem Arrival.Good.head (h : a.Good sha256 m published) (hphase : a.phase ≠ .idle)
    {rest : List String}
    (htodo : a.todo = file :: rest) : file ∈ m.files ∧ ∃ before,
      m.files = before ++ file :: rest ∧ ∀ file ∈ before, a.Here published file := by
  obtain ⟨before, hfiles, hhere⟩ := h.done hphase
  rw [htodo] at hfiles
  exact ⟨by simp [hfiles], before, hfiles, hhere⟩

omit hpublished in
theorem Arrival.Kept.fails (h : a.Kept sha256 m published) : a.fail.Good sha256 m published where
  parts := h.parts
  files := h.files
  done hphase := absurd rfl hphase
  fetching _ hphase := by simp [Arrival.fail] at hphase
  arrived hphase := by simp [Arrival.fail] at hphase
  told htold := by simp [Arrival.fail] at htold

/-- A file is fetched from what its part holds. -/
theorem Arrival.Kept.fetches (h : a.Kept sha256 m published) {rest before : List String}
    (htodo : a.todo = file :: rest) (htold : a.told ≠ some true)
    (hfiles : m.files = before ++ file :: rest) (hhere : ∀ file ∈ before, a.Here published file) :
    (a.fetches m file).Good sha256 m published where
  parts := h.parts
  files := h.files
  done _ := ⟨before, by rw [hfiles, ← htodo]; rfl, hhere⟩
  fetching f hphase file' rest' htodo' := by
    have hfile : file ∈ m.files := by simp [hfiles]
    obtain rfl : file = file' := (List.cons.inj (htodo.symm.trans htodo')).1
    obtain rfl := Phase.fetching.inj hphase
    refine ⟨rfl, ?_, fun len hlen => ?_⟩
    · rw [Fetching.held, Fetching.start]
      rcases hpart : a.folder (part file) with _ | f
      · exact List.nil_prefix
      · exact h.parts file hfile f hpart
    · obtain ⟨check, hcheck, rfl⟩ := Option.map_eq_some_iff.mp hlen
      exact hpublished.bytes file hfile check hcheck
  arrived hphase := by simp [Arrival.fetches] at hphase
  told h := absurd h htold

omit hpublished in
/-- The thread is through with a file that is here. -/
theorem Arrival.Kept.passes (h : a.Kept sha256 m published) {rest before : List String}
    (hphase : a.phase = .next) (htodo : a.todo = rest) (htold : a.told ≠ some true)
    (hfiles : m.files = before ++ file :: rest) (hhere : ∀ file ∈ before, a.Here published file)
    (hfile : a.Here published file) : a.Good sha256 m published where
  parts := h.parts
  files := h.files
  done _ := by
    refine ⟨before ++ [file], by rw [hfiles, htodo, List.append_assoc]; rfl, fun file' hfile' => ?_⟩
    rcases List.mem_append.mp hfile' with hbefore | hlast
    · exact hhere file' hbefore
    · rwa [List.mem_singleton.mp hlast]
  fetching _ h := by simp [hphase] at h
  arrived h := by simp [hphase] at h
  told h := absurd h htold

theorem Arrival.Good.looks (h : a.Good sha256 m published)
    (hcollision : NoCollision sha256 m published)
    (hphase : a.phase = .next) : (a.looks sha256 m).Good sha256 m published := by
  have hbusy : a.phase ≠ .idle := by simp [hphase]
  have htold : a.told ≠ some true := fun htold => hbusy (h.told htold).1
  rw [Arrival.looks]
  rcases htodo : a.todo with _ | ⟨file, rest⟩
  · obtain ⟨before, hfiles, hhere⟩ := h.done hbusy
    rw [htodo, List.append_nil] at hfiles
    exact ⟨⟨h.parts, h.files⟩, fun h => absurd rfl h, fun _ h => by simp at h,
      fun h => by simp at h, fun _ => ⟨rfl, hfiles ▸ hhere⟩⟩
  dsimp only
  obtain ⟨hfile, before, hfiles, hhere⟩ := h.head hbusy htodo
  have hfetches := h.toKept.fetches hpublished htodo htold hfiles hhere
  rcases hdest : a.folder file with _ | f
  · exact hfetches
  rcases hpart : a.folder (part file) with _ | p
  swap
  · exact hfetches
  dsimp only
  rw [Arrival.lookAt]
  rcases hdigest : digestOf (m.verify file) with _ | digest
  · exact Arrival.Kept.passes (a := { a with todo := rest }) ⟨h.parts, h.files⟩ hphase rfl htold
      hfiles hhere ⟨f, hdest, (h.files file hfile f hdest).2 hdigest⟩
  have hsame : sha256 f.content = digest → f.content = published file := fun hsha =>
    hcollision file hfile _ (hsha.trans (hpublished.digests file hfile digest hdigest))
  dsimp only
  split_ifs with hholds hsha hshort
  · exact Arrival.Kept.passes (a := { a with todo := rest }) ⟨h.parts, h.files⟩ hphase rfl htold
      hfiles hhere ⟨f, hdest, hsame ((h.files file hfile f hdest).1 digest hdigest hholds)⟩
  · have hkept : Arrival.Kept sha256 m published
        { a with todo := rest, verified := a.stamped file f digest } := by
      refine h.toKept.of (fun file' _ f' hf' => Or.inl hf') fun file' hfile' f' hf' => ?_
      by_cases hsame' : file' = file
      · subst hsame'
        obtain rfl : f = f' := Option.some.inj (hdest.symm.trans hf')
        exact Or.inr (right_of_content hpublished hfile' (hsame hsha))
      · refine Or.inl ⟨hf', ?_⟩
        dsimp only
        rw [Arrival.stamped]
        rcases f.lengthAndTime with _ | ⟨bytes, modifiedMs⟩
        · rfl
        · exact Function.update_of_ne hsame' _ _
    exact hkept.passes hphase rfl htold hfiles hhere ⟨f, hdest, hsame hsha⟩
  · exact h.toKept.fails
  · have hkept : Arrival.Kept sha256 m published
        { a with folder := Function.update a.folder file none } := by
      refine h.toKept.of (fun file' hfile' f' hf' => Or.inl ?_)
        fun file' hfile' f' hf' => Or.inl ⟨?_, rfl⟩
      · dsimp only at hf'
        rwa [Function.update_of_ne (part_ne_of_mem hpublished hfile hfile').symm] at hf'
      · dsimp only at hf'
        by_cases hsame' : file' = file
        · rw [hsame', Function.update_self] at hf'
          simp at hf'
        · rwa [Function.update_of_ne hsame'] at hf'
    refine hkept.fetches hpublished htodo htold hfiles fun file' hbefore => ?_
    obtain ⟨f', hf', hcontent⟩ := hhere file' hbefore
    refine ⟨f', ?_, hcontent⟩
    dsimp only
    rw [Function.update_of_ne, hf']
    rintro rfl
    obtain rfl : f = f' := Option.some.inj (hdest.symm.trans hf')
    exact hsha (by rw [hcontent, hpublished.digests file' hfile digest hdigest])

theorem Arrival.Good.rounds (h : a.Good sha256 m published) {f : Fetching} {rest : List String}
    {turn : Turn} {modified : ℤ} (hphase : a.phase = .fetching f) (htodo : a.todo = file :: rest)
    (hhonest : Resuming.Honest (published file) f turn.answer)
    (hshows : Shows (published file) f turn.answer) :
    (a.rounds attempts f file turn modified).Good sha256 m published := by
  have hbusy : a.phase ≠ .idle := by simp [hphase]
  have htold : a.told ≠ some true := fun htold => hbusy (h.told htold).1
  obtain ⟨hfile, before, hfiles, hhere⟩ := h.head hbusy htodo
  have hstep : (f.step attempts turn).Begins (published file) :=
    (h.fetching f hphase file rest htodo).2.step (hpublished.lengths file hfile) hhonest hshows
  have hbefore : ∀ {content : Option (List UInt8)}, ∀ file' ∈ before,
      (a.leaves file content modified).Here published file' := fun file' hfile' =>
    (a.here_leaves hpublished hfile (by simp [hfiles, hfile'])).mpr (hhere file' hfile')
  rw [Arrival.rounds]
  rcases hresult : f.step attempts turn with f' | ⟨content, result⟩ <;> rw [hresult] at hstep
  · have hkept := h.toKept.leaves hpublished hfile modified hstep.part
    refine ⟨⟨hkept.parts, hkept.files⟩, fun _ => ⟨before, by rw [hfiles, ← htodo]; rfl, hbefore⟩,
      fun g hg file' rest' htodo' => ?_, fun hg => by simp at hg, fun hg => absurd hg htold⟩
    obtain rfl : file = file' := (List.cons.inj (htodo.symm.trans htodo')).1
    obtain rfl := Phase.fetching.inj hg
    refine ⟨?_, hstep⟩
    dsimp only [Arrival.leaves]
    rw [Function.update_self]
    rcases f'.part with _ | c <;> rfl
  · have hkept := h.toKept.leaves hpublished hfile modified hstep.begins
    rcases result with written | _ | _ | _ | _ | _
    · refine ⟨⟨hkept.parts, hkept.files⟩, fun _ => ⟨before, by rw [hfiles, ← htodo]; rfl, hbefore⟩,
        fun g hg => by simp at hg, fun _ file' rest' htodo' => ?_, fun hg => absurd hg htold⟩
      obtain rfl : file = file' := (List.cons.inj (htodo.symm.trans htodo')).1
      refine ⟨⟨published file, modified⟩, ?_, rfl⟩
      dsimp only [Arrival.leaves]
      rw [hstep.whole written rfl, Function.update_self]
      rfl
    all_goals exact hkept.fails

theorem Arrival.Good.settles (h : a.Good sha256 m published) {rest : List String}
    (hphase : a.phase = .arrived) (htodo : a.todo = file :: rest) :
    (a.settles sha256 m file rest).Good sha256 m published := by
  have hbusy : a.phase ≠ .idle := by simp [hphase]
  have htold : a.told ≠ some true := fun htold => hbusy (h.told htold).1
  obtain ⟨hfile, before, hfiles, hhere⟩ := h.head hbusy htodo
  obtain ⟨f, hf, hcontent⟩ := h.arrived hphase file rest htodo
  have hright := right_of_content hpublished hfile hcontent
  -- the part has its name, whatever the stamps of this file
  have hrenamed : ∀ verified : String → Option Stamp,
      (∀ file', file' ≠ file → verified file' = a.verified file') →
      Arrival.Good sha256 m published { a with
        folder := Function.update (Function.update a.folder file (some f)) (part file) none
        verified, todo := rest, phase := .next } := by
    intro verified hverified
    have hnames : ∀ file' ∈ m.files,
        Function.update (Function.update a.folder file (some f)) (part file) none file' =
          if file' = file then some f else a.folder file' := by
      intro file' hfile'
      rw [Function.update_of_ne (part_ne_of_mem hpublished hfile' hfile), Function.update_apply]
    have hkept : Arrival.Kept sha256 m published { a with
        folder := Function.update (Function.update a.folder file (some f)) (part file) none
        verified, todo := rest, phase := .next } := by
      refine h.toKept.of (fun file' hfile' f' hf' => Or.inl ?_) fun file' hfile' f' hf' => ?_
      · dsimp only at hf'
        by_cases hsame : part file' = part file
        · rw [hsame, Function.update_self] at hf'
          simp at hf'
        · rwa [Function.update_of_ne hsame,
            Function.update_of_ne (part_ne_of_mem hpublished hfile hfile').symm] at hf'
      · dsimp only at hf'
        rw [hnames file' hfile'] at hf'
        split_ifs at hf' with hsame
        · obtain rfl := Option.some.inj hf'
          exact Or.inr (hsame ▸ hright)
        · exact Or.inl ⟨hf', hverified file' hsame⟩
    refine hkept.passes rfl rfl htold hfiles (fun file' hfile' => ?_) ⟨f, ?_, hcontent⟩
    · have hmem : file' ∈ m.files := by simp [hfiles, hfile']
      obtain ⟨f', hf', hcontent'⟩ := hhere file' hfile'
      rw [Arrival.Here]
      dsimp only
      rw [hnames file' hmem]
      split_ifs with hsame
      · exact ⟨f, rfl, hsame ▸ hcontent⟩
      · exact ⟨f', hf', hcontent'⟩
    · dsimp only
      rw [hnames file hfile, if_pos rfl]
  rw [Arrival.settles, hf]
  dsimp only
  rw [Arrival.settleAs]
  rcases hdigest : digestOf (m.verify file) with _ | digest
  · exact hrenamed a.verified fun _ _ => rfl
  · dsimp only
    rw [if_pos (hright.2 digest hdigest)]
    refine hrenamed _ fun file' hne => ?_
    rw [Arrival.stamped]
    rcases f.lengthAndTime with _ | ⟨bytes, modifiedMs⟩
    · rfl
    · exact Function.update_of_ne hne _ _

/-- **Each step** with an honest server keeps the invariant. -/
theorem Arrival.Good.step (h : a.Good sha256 m published)
    (hcollision : NoCollision sha256 m published)
    (hhonest : act.Honest published a) :
    (a.step sha256 m attempts act).Good sha256 m published := by
  rcases act with _ | _ | ⟨turn, modified⟩ | _ | _
  · rw [Arrival.step]
    split
    · exact ⟨⟨h.parts, h.files⟩, fun _ => ⟨[], rfl, by simp⟩, fun _ hg => by simp at hg,
        fun hg => by simp at hg, fun hg => by simp at hg⟩
    · exact h
  · rw [Arrival.step]
    split
    · rename_i hphase
      exact h.looks hpublished hcollision hphase
    · exact h
  · rw [Arrival.step]
    split
    · rename_i f file rest hphase htodo
      obtain ⟨hanswer, hshows⟩ := hhonest f file rest hphase htodo
      exact h.rounds hpublished hphase htodo hanswer hshows
    · exact h
  · rw [Arrival.step]
    split
    · rename_i file rest hphase htodo
      exact h.settles hpublished hphase htodo
    · exact h
  · exact ⟨⟨h.parts, h.files⟩, fun hg => absurd rfl hg, fun _ hg => by simp [Arrival.step] at hg,
      fun hg => by simp [Arrival.step] at hg, fun hg => by simp [Arrival.step] at hg⟩

/-- **Every run** with an honest server keeps the invariant. -/
theorem Arrival.Good.runs {b : Arrival} (h : a.Good sha256 m published)
    (hcollision : NoCollision sha256 m published)
    (hrun : (arrivals sha256 m attempts).Runs (fun a act => act.Honest published a) a b) :
    b.Good sha256 m published :=
  hrun.invariant h fun _ _ hgood _ hhonest => hgood.step hpublished hcollision hhonest

variable (attempts act) in
/-- What any step does to a finished file with a digest: it stays, it is removed for another than
the published one, or one with the digest takes its name. -/
theorem Arrival.step_file (hfile : file ∈ m.files) {digest : String}
    (hdigest : digestOf (m.verify file) = some digest) (hplace : a.phase ≠ .idle →
      ∀ file' rest, a.todo = file' :: rest → file' ∈ m.files) :
    (a.step sha256 m attempts act).folder file = a.folder file ∨
      ((a.step sha256 m attempts act).folder file = none ∧
        ∃ f, a.folder file = some f ∧ sha256 f.content ≠ digest) ∨
      ∃ f, (a.step sha256 m attempts act).folder file = some f ∧ sha256 f.content = digest := by
  rcases act with _ | _ | ⟨turn, modified⟩ | _ | _
  · rw [Arrival.step]
    split <;> exact Or.inl rfl
  · rw [Arrival.step]
    split
    swap
    · exact Or.inl rfl
    rename_i hphase
    rw [Arrival.looks]
    rcases htodo : a.todo with _ | ⟨file', rest⟩
    · exact Or.inl rfl
    dsimp only
    split
    swap
    · exact Or.inl rfl
    rename_i f hdest hpart
    rw [Arrival.lookAt]
    split
    · exact Or.inl rfl
    rename_i digest' hdigest'
    split_ifs with hholds hsha hshort
    · exact Or.inl rfl
    · exact Or.inl rfl
    · exact Or.inl rfl
    · by_cases hsame : file = file'
      · subst hsame
        rw [hdigest, Option.some.injEq] at hdigest'
        exact Or.inr (Or.inl ⟨Function.update_self _ _ _, f, hdest, hdigest' ▸ hsha⟩)
      · exact Or.inl (Function.update_of_ne hsame _ _)
  · rw [Arrival.step]
    split
    swap
    · exact Or.inl rfl
    rename_i f file' rest hphase htodo
    have hne := part_ne_of_mem hpublished hfile (hplace (by simp [hphase]) file' rest htodo)
    rw [Arrival.rounds]
    rcases f.step attempts turn with f' | ⟨content, result⟩
    · exact Or.inl (Function.update_of_ne hne _ _)
    · rcases result with _ | _ | _ | _ | _ | _ <;> exact Or.inl (Function.update_of_ne hne _ _)
  · rw [Arrival.step]
    split
    swap
    · exact Or.inl rfl
    rename_i file' rest hphase htodo
    have hne := part_ne_of_mem hpublished hfile (hplace (by simp [hphase]) file' rest htodo)
    rw [Arrival.settles]
    split
    · exact Or.inl rfl
    rename_i f hpart
    rw [Arrival.settleAs]
    have hrenamed :
        Function.update (Function.update a.folder file' (some f)) (part file') none file =
          if file = file' then some f else a.folder file := by
      rw [Function.update_of_ne hne, Function.update_apply]
    split
    · rename_i hbare
      dsimp only
      rw [hrenamed]
      split_ifs with hsame
      · rw [← hsame, hdigest] at hbare
        simp at hbare
      · exact Or.inl rfl
    · rename_i digest' hdigest'
      split_ifs with hsha
      · dsimp only
        rw [hrenamed]
        split_ifs with hsame
        · rw [← hsame, hdigest, Option.some.injEq] at hdigest'
          exact Or.inr (Or.inr ⟨f, rfl, hdigest' ▸ hsha⟩)
        · exact Or.inl rfl
      · exact Or.inl (Function.update_of_ne hne _ _)
  · exact Or.inl rfl

/-- The files that are still to come are the model's. -/
def Arrival.Placed (m : CatalogModel) (a : Arrival) : Prop :=
  a.phase ≠ .idle → a.todo ⊆ m.files

omit hpublished in
theorem Arrival.Placed.step (h : a.Placed m) : (a.step sha256 m attempts act).Placed m := by
  rcases act with _ | _ | ⟨turn, modified⟩ | _ | _
  · rw [Arrival.step]
    split
    · exact fun _ => List.Subset.refl _
    · exact h
  · rw [Arrival.step]
    split
    swap
    · exact h
    rename_i hphase
    have hbusy : a.phase ≠ .idle := by simp [hphase]
    rw [Arrival.looks]
    split
    · exact fun hidle => absurd rfl hidle
    rename_i file rest htodo
    have hall : file :: rest ⊆ m.files := htodo ▸ h hbusy
    have hrest := List.Subset.trans (List.subset_cons_self file rest) hall
    split
    · rw [Arrival.lookAt]
      split
      · exact fun _ => hrest
      · split_ifs
        · exact fun _ => hrest
        · exact fun _ => hrest
        · exact fun hidle => absurd rfl hidle
        · exact fun _ => h hbusy
    · exact fun _ => h hbusy
  · rw [Arrival.step]
    split
    swap
    · exact h
    rename_i f file rest hphase htodo
    have hbusy : a.phase ≠ .idle := by simp [hphase]
    rw [Arrival.rounds]
    rcases f.step attempts turn with f' | ⟨content, result⟩
    · exact fun _ => h hbusy
    · rcases result with _ | _ | _ | _ | _ | _
      · exact fun _ => h hbusy
      all_goals exact fun hidle => absurd rfl hidle
  · rw [Arrival.step]
    split
    swap
    · exact h
    rename_i file rest hphase htodo
    have hall : file :: rest ⊆ m.files := htodo ▸ h (by simp [hphase])
    have hrest := List.Subset.trans (List.subset_cons_self file rest) hall
    rw [Arrival.settles]
    split
    · exact fun hidle => absurd rfl hidle
    rw [Arrival.settleAs]
    split
    · exact fun _ => hrest
    · split_ifs
      · exact fun _ => hrest
      · exact fun hidle => absurd rfl hidle
  · exact fun hidle => absurd rfl hidle

/-- The part in a round's midst: so many of an answer's bytes were written. -/
def Fetching.Passes (s : Fetching) (turn : Turn) (content : List UInt8) : Prop :=
  ∃ length pieces ending k,
    (turn.answer = .answered 206 length pieces ending ∧ content = s.held ++ pieces.flatten.take k) ∨
    (turn.answer = .answered 200 length pieces ending ∧ content = pieces.flatten.take k)

omit hpublished in
theorem Fetching.Begins.passes {s : Fetching} {turn : Turn} {whole content : List UInt8}
    (h : s.Begins whole) (hhonest : Resuming.Honest whole s turn.answer)
    (hpasses : s.Passes turn content) : content <+: whole := by
  obtain ⟨length, pieces, ending, k, ⟨hanswer, rfl⟩ | ⟨hanswer, rfl⟩⟩ := hpasses
  · rw [hanswer] at hhonest
    rw [h.kept true]
    exact (List.prefix_append_right_inj _).mpr ((List.take_prefix k _).trans hhonest.body)
  · rw [hanswer] at hhonest
    exact (List.take_prefix k _).trans hhonest.body

/-- **Resuming a download is exact.** With an honest server, over whose length-less answers a cut
shows: the part is at every moment a beginning of the published file, also in the midst of a round,
it is the file where `fetch_file` gives `Ok`, and where `fetch_all` does every file is here under
its own name. With any server a finished file that has a digest and is the published one stays, and
one with a digest takes its name with that digest only. -/
theorem downloads_exact (hcollision : NoCollision sha256 m published)
    (hkept : a.Kept sha256 m published)
    (hidle : a.phase = .idle) (htold : a.told ≠ some true) :
    (∀ b, (arrivals sha256 m attempts).Runs (fun a act => act.Honest published a) a b →
      (∀ file ∈ m.files, ∀ f, b.folder (part file) = some f → f.content <+: published file) ∧
      (∀ f file rest turn content, b.phase = .fetching f → b.todo = file :: rest →
        Resuming.Honest (published file) f turn.answer → f.Passes turn content →
        content <+: published file) ∧
      (b.phase = .arrived → ∀ file rest, b.todo = file :: rest →
        ∃ f, b.folder (part file) = some f ∧ f.content = published file) ∧
      (b.told = some true → ∀ file ∈ m.files, b.Here published file)) ∧
    ∀ b, (arrivals sha256 m attempts).Runs (fun _ _ => True) a b → ∀ act, ∀ file ∈ m.files,
      ∀ digest, digestOf (m.verify file) = some digest →
      (b.Here published file → (b.step sha256 m attempts act).Here published file) ∧
      ∀ f, (b.step sha256 m attempts act).folder file = some f → b.folder file ≠ some f →
        sha256 f.content = digest := by
  constructor
  · intro b hrun
    have hstart : a.Good sha256 m published :=
      ⟨hkept, fun h => absurd hidle h, fun _ h => by simp [hidle] at h,
        fun h => by simp [hidle] at h, fun h => absurd h htold⟩
    have hgood := hstart.runs hpublished hcollision hrun
    refine ⟨hgood.parts, fun f file rest turn content hphase htodo hhonest hpasses => ?_,
      hgood.arrived, fun h => (hgood.told h).2⟩
    exact (hgood.fetching f hphase file rest htodo).2.passes hhonest hpasses
  · intro b hrun act file hfile digest hdigest
    have hplaced : a.Placed m := fun h => absurd hidle h
    have htodo : b.Placed m := hrun.invariant hplaced fun _ _ h _ _ => h.step
    have hfile' := Arrival.step_file attempts act hpublished hfile hdigest
      fun hbusy file' rest hfiles => htodo hbusy (by rw [hfiles]; exact List.mem_cons_self)
    have hsha := hpublished.digests file hfile digest hdigest
    constructor
    · rintro ⟨f, hf, hcontent⟩
      rcases hfile' with hsame | ⟨-, f', hf', hother⟩ | ⟨f', hf', hdigest'⟩
      · exact ⟨f, by rw [hsame, hf], hcontent⟩
      · obtain rfl : f = f' := Option.some.inj (hf.symm.trans hf')
        exact absurd (by rw [hcontent, hsha]) hother
      · exact ⟨f', hf', hcollision file hfile _ (hdigest'.trans hsha)⟩
    · intro f hf hnew
      rcases hfile' with hsame | ⟨hnone, -⟩ | ⟨f', hf', hdigest'⟩
      · exact absurd (by rw [← hsame, hf]) hnew
      · simp [hnone] at hf
      · obtain rfl : f = f' := Option.some.inj (hf.symm.trans hf')
        exact hdigest'

end Steps

namespace Sample

/-- A file of two bytes, and its digest. -/
@[grind =]
def bytes : List UInt8 := [0, 1]

@[grind =]
def digest : String := "b413f47d13ee2fe6c845b2ee141af81de858df4ec549a58b7970bb96645bc8d2"

/-- Of the contents here, only that file has its digest. -/
def sha256 (content : List UInt8) : String :=
  if content = bytes then digest else ""

def tiny : CatalogModel where
  id := "tiny"
  repo := "org/tiny"
  path := none
  files := ["tiny.gguf"]
  verify _ := some ⟨2, digest⟩

/-- Nothing of it is here. -/
@[grind =]
def empty : Arrival :=
  ⟨fun _ => none, fun _ => none, [], .idle, none⟩

/-- Its first byte arrives before the connection drops, and then all of it. -/
def arrived : Arrival :=
  (arrivals sha256 tiny 8).run empty [.start, .look,
    .round ⟨false, .answered 200 (some 2) [[0]] .drops, none⟩ 0,
    .round ⟨false, .answered 200 (some 2) [[0], [1]] .ends, none⟩ 0, .settle, .look]

theorem tiny_arrives : arrived.told = some true ∧ arrived.Here (fun _ => bytes) "tiny.gguf" := by
  have hpublished : Published sha256 tiny fun _ => bytes := by
    constructor
    · exact fun _ _ => by decide
    · rintro _ - check hcheck
      obtain rfl := Option.some.inj hcheck
      rfl
    · rintro _ - digest hdigest
      obtain rfl := Option.some.inj hdigest
      rfl
    · intro file hfile
      rw [List.mem_singleton.mp hfile]
      decide +kernel
  have hcollision : NoCollision sha256 tiny fun _ => bytes := by
    rintro _ - content hcontent
    by_contra hne
    rw [sha256, sha256, if_neg hne, if_pos rfl] at hcontent
    exact absurd hcontent (by decide +kernel)
  have hkept : empty.Kept sha256 tiny fun _ => bytes :=
    ⟨by rintro _ - _ ⟨⟩, by rintro _ - _ ⟨⟩⟩
  have hrun : (arrivals sha256 tiny 8).Runs (fun a act => act.Honest (fun _ => bytes) a) empty
      arrived := by
    refine System.runs_of_list ⟨trivial, trivial, trivial, trivial, trivial, ?_, trivial, ?_,
      trivial, trivial, trivial, trivial, trivial⟩
    · exact fun _ _ _ _ _ => ⟨⟨⟨[1], rfl⟩, fun _ h => (Option.some.inj h).symm⟩, trivial⟩
    · exact fun _ _ _ _ _ => ⟨⟨⟨[], rfl⟩, fun _ h => (Option.some.inj h).symm⟩, fun _ => rfl⟩
  have htold : arrived.told = some true := by decide +kernel
  exact ⟨htold, ((downloads_exact hpublished hcollision hkept rfl
    (by rintro ⟨⟩)).1 arrived hrun).2.2.2 htold "tiny.gguf" List.mem_cons_self⟩

/-- The first byte of it, cut before the second where no length is announced. -/
def firstByte : Answer :=
  .answered 200 none [[0]] .ends

/-- The cut is not seen, and one byte is taken for the file. -/
theorem cut_unseen : Honest bytes (.start none none) firstByte ∧
    run 8 (fun _ => ⟨false, firstByte, none⟩) (.start none none) 1 =
      .returns (some [0]) (.ok 1) := by
  refine ⟨⟨⟨[1], rfl⟩, by rintro _ ⟨⟩⟩, ?_⟩
  decide

end Sample

end Resuming

end Models

end LocalSpace
