import Mathlib.Data.List.Induction
import Mathlib.Data.Set.Function
import Mathlib.Logic.Function.Basic
import LocalSpace.Proto

/-!
# What people attach to their messages

`attachments.rs`: files kept on this computer, pending until they go with a message and then with
its chat. The file system is a map of paths to files whose operations may fail, and leave a part
behind (`Written`, `Removed`); putting back what `take` has moved succeeds. Over runs whose names
have folders of their own and whose failing operations leave no part behind, each user's files are
what they added, by where it is kept (`kept_run`).
-/

namespace LocalSpace.Attachments

/-! ### Files -/

structure Attachment where
  id : String
  isText : Bool
  name : String
  mime : String
  width : Nat
  height : Nat
  /-- How many characters of a text file are read. -/
  readChars : Option Nat

/-- A file's name: an id, which has no dot, and an extension. -/
abbrev Name := String × String

/-- Below the root: a person's folder, a folder in it, a file. -/
abbrev Path := String × String × Name

inductive File where
  | data (bytes : Bytes)
  | record (a : Attachment)

abbrev Disk := Path → Option File

/-- What came of a write: it is there, or failed and left the file so. -/
inductive Written where
  | done
  | failed (left : Option File)

@[grind =]
def write (d : Disk) (path : Path) (file : File) : Written → Disk
  | .done => Function.update d path (some file)
  | .failed left => Function.update d path left

def Written.isDone : Written → Bool
  | .done => true
  | .failed _ => false

/-- What came of a folder's removal: it is gone, or some of its files are left. -/
inductive Removed where
  | done
  | failed (left : Name → Bool)

def Removed.isDone : Removed → Bool
  | .done => true
  | .failed _ => false

@[grind =]
def Removed.leaves : Removed → Name → Bool
  | .done, _ => false
  | .failed left, name => left name

/-- A folder removed with all in it, but for what is left when that fails. -/
def removeDir (d : Disk) (person dir : String) (left : Name → Bool) : Disk
  | (person', dir', name) =>
    if person' = person ∧ dir' = dir ∧ left name = false then none else d (person', dir', name)

def mostPerMessage : Nat := 4
def pendingDir : String := "pending"

/-- `BLAKE3`'s first 32 digits, and what makes a file ready. -/
structure Making where
  hash : Bytes → String
  utf8 : String → Bytes
  /-- A picture's kept bytes, its kind, its width and height. -/
  prepare : Bytes → Option (Bytes × String × Nat × Nat)
  /-- A text file as UTF-8, and its characters. -/
  decode : Bytes → Option (Bytes × Nat)
  isPicture : String → Bytes → Bool

variable (M : Making)

/-- A folder name for a person or a chat. -/
def folder (name : String) : String :=
  if name ≠ "" ∧ (M.utf8 name).length ≤ 64 ∧
      name.toList.all (fun c => c.isAlphanum ∨ c = '-' ∨ c = '_') = true then name
  else M.hash (M.utf8 name)

def isId (id : String) : Bool :=
  id.toList.length = 32 ∧ id.toList.all fun c => c.isDigit ∨ ('a' ≤ c ∧ c ≤ 'f')

def extension (mime : String) : String :=
  match mime with
  | "image/jpeg" => "jpg"
  | "text/plain" => "txt"
  | _ => "png"

@[grind =]
def fileOf (a : Attachment) : Name := (a.id, extension a.mime)

@[grind =]
def recordOf (id : String) : Name := (id, "json")

/-- A file made ready: what it is, and the bytes that are kept. -/
def ready (name : String) (bytes : Bytes) : Option (Attachment × Bytes) :=
  if M.isPicture name bytes then
    (M.prepare bytes).map fun (kept, mime, width, height) =>
      (⟨M.hash kept, false, String.ofList (name.toList.take 200), mime, width, height, none⟩, kept)
  else
    (M.decode bytes).map fun (kept, chars) =>
      (⟨M.hash (M.utf8 name ++ [0] ++ bytes), true, String.ofList (name.toList.take 200),
        "text/plain", 0, 0, some chars⟩, kept)

def readMeta (d : Disk) (person dir id : String) : Option Attachment :=
  if isId id then
    match d (person, dir, recordOf id) with
    | some (.record a) => if a.id = id then some a else none
    | _ => none
  else none

/-! ### The operations -/

inductive Refusal where
  | unready | unkept | tooMany | notFound

def keepPending (d : Disk) (user : String) (a : Attachment) (bytes : Bytes) (made : Bool)
    (data record : Written) : Except Refusal Unit × Disk :=
  let person := folder M user
  if made then
    let d := write d (person, pendingDir, fileOf a) (.data bytes) data
    match data with
    | .failed _ => (.error .unkept, d)
    | .done =>
      let d := write d (person, pendingDir, recordOf a.id) (.record a) record
      match record with
      | .failed _ => (.error .unkept, d)
      | .done => (.ok (), d)
  else (.error .unkept, d)

@[grind =]
def add (d : Disk) (user name : String) (bytes : Bytes) (made : Bool) (data record : Written) :
    Except Refusal Attachment × Disk :=
  match ready M name bytes with
  | none => (.error .unready, d)
  | some (a, kept) =>
    let (result, d) := keepPending M d user a kept made data record
    (result.map fun _ => a, d)

/-- The attachments named, each once. -/
def gather (d : Disk) (person : String) : List String → List Attachment → Option (List Attachment)
  | [], taken => some taken
  | id :: rest, taken =>
    if taken.any (·.id = id) then gather d person rest taken
    else match readMeta d person pendingDir id with
      | none => none
      | some a => gather d person rest (taken ++ [a])

/-- What was moved is put back, the last first. -/
def putBack (person chat : String) (d : Disk) (moved : List Name) : Disk :=
  moved.foldl (fun d name => Function.update
    (Function.update d (person, pendingDir, name) (d (person, chat, name)))
    (person, chat, name) none) d

/-- Files moved into the chat's folder, the last moved first, and those that it had. -/
def moveAll (person chat : String) (fails : Name → Bool) :
    List Name → Disk → List Name → List Name → Except Disk (Disk × List Name)
  | [], d, _, had => .ok (d, had)
  | name :: rest, d, moved, had =>
    if (d (person, chat, name)).isSome then moveAll person chat fails rest d moved (had ++ [name])
    else if fails name ∨ d (person, pendingDir, name) = none then
      .error (putBack person chat d moved)
    else
      moveAll person chat fails rest
        (Function.update
          (Function.update d (person, chat, name) (d (person, pendingDir, name)))
          (person, pendingDir, name) none)
        (name :: moved) had

def namesOf (taken : List Attachment) : List Name :=
  taken.flatMap fun a => [fileOf a, recordOf a.id]

/-- The pending copies of what the chat had are dropped, where that does not fail. -/
def dropAll (person : String) (fails : Name → Bool) (d : Disk) (had : List Name) : Disk :=
  had.foldl (fun d name =>
    if fails name then d else Function.update d (person, pendingDir, name) none) d

@[grind =]
def take (d : Disk) (user conversation : String) (ids : List String) (made : Bool)
    (fails kept : Name → Bool) : Except Refusal (List Attachment) × Disk :=
  let person := folder M user
  let chat := folder M conversation
  if mostPerMessage < ids.length then (.error .tooMany, d)
  else match gather d person ids [] with
    | none => (.error .notFound, d)
    | some taken =>
      if made then
        match moveAll person chat fails (namesOf taken) d [] [] with
        | .error d => (.error .notFound, d)
        | .ok (d, had) => (.ok taken, dropAll person kept d had)
      else (.error .notFound, d)

def update (d : Disk) (user conversation : String) (a : Attachment) (record : Written) : Disk :=
  if isId a.id then
    write d (folder M user, folder M conversation, recordOf a.id) (.record a) record
  else d

@[grind =]
def forget (d : Disk) (user conversation : String) (removed : Removed) : Disk :=
  removeDir d (folder M user) (folder M conversation) removed.leaves

/-- `clear_pending`, of every person. -/
def clearPending (d : Disk) (removed : String → Removed) : Disk
  | (person, dir, name) =>
    if dir = pendingDir ∧ (removed person).leaves name = false then none else d (person, dir, name)

def bytesOf (d : Disk) (user conversation : String) (a : Attachment) : Option Bytes :=
  if isId a.id then
    match d (folder M user, folder M conversation, fileOf a) with
    | some (.data bytes) => some bytes
    | _ => none
  else none

/-- The bytes of a text file that are read, at most four a character. -/
@[grind =]
def textOf (d : Disk) (user conversation : String) (a : Attachment) : Option Bytes :=
  if a.isText then
    (bytesOf M d user conversation a).map fun bytes => match a.readChars with
      | some chars => bytes.take (4 * chars)
      | none => bytes
  else none

/-- One of the person's own, in the folders as they are listed. -/
@[grind =]
def find (d : Disk) (user id : String) (dirs : List String) : Option (Attachment × Bytes) :=
  dirs.findSome? fun dir =>
    match readMeta d (folder M user) dir id with
    | some a => match d (folder M user, dir, fileOf a) with
      | some (.data bytes) => some (a, bytes)
      | _ => none
    | none => none

inductive Op where
  | add (user name : String) (bytes : Bytes) (made : Bool) (data record : Written)
  | take (user conversation : String) (ids : List String) (made : Bool) (fails kept : Name → Bool)
  | update (user conversation : String) (a : Attachment) (record : Written)
  | forget (user conversation : String) (removed : Removed)
  | restart (removed : String → Removed)

@[grind =]
def after (d : Disk) : Op → Disk
  | .add user name bytes made data record => (add M d user name bytes made data record).2
  | .take user conversation ids made fails kept =>
    (take M d user conversation ids made fails kept).2
  | .update user conversation a record => update M d user conversation a record
  | .forget user conversation removed => forget M d user conversation removed
  | .restart removed => clearPending d removed

@[grind =]
def run (ops : List Op) : Disk :=
  ops.foldl (after M) fun _ => none

/-! ### What a person's files are for -/

/-- Where a file is kept. -/
inductive Place where
  | pending
  | chat (conversation : String)
  deriving DecidableEq

structure Held where
  attachment : Attachment
  bytes : Bytes

/-- Each person's files, by where they are kept. -/
abbrev Kept := String → Place → String → Option Held

@[grind =]
def Kept.set (k : Kept) (user : String) (p : Place) (files : String → Option Held) : Kept :=
  fun user' p' => if user' = user ∧ p' = p then files else k user' p'

/-- An operation that answers has answered `Ok`. -/
def went (d : Disk) : Op → Bool
  | .add user name bytes made data record => (add M d user name bytes made data record).1.isOk
  | .take user conversation ids made fails kept =>
    (take M d user conversation ids made fails kept).1.isOk
  | .update .. | .forget .. | .restart _ => true

/-- What an operation is for: `ok` says that it has gone through, where it answers. One that fails
is for nothing. -/
@[grind =]
def Kept.after (k : Kept) (ok : Bool) : Op → Kept
  | .add user name bytes _ _ _ =>
    match ready M name bytes with
    | none => k
    | some (a, kept) =>
      if ok then k.set user .pending (Function.update (k user .pending) a.id (some ⟨a, kept⟩))
      else k
  | .take user conversation ids _ _ _ =>
    if ok then
      (k.set user .pending fun id => if id ∈ ids then none else k user .pending id).set
        user (.chat conversation) fun id =>
          if id ∈ ids then (k user (.chat conversation) id).or (k user .pending id)
          else k user (.chat conversation) id
    else k
  | .update user conversation a record =>
    if isId a.id && record.isDone then
      k.set user (.chat conversation) (Function.update (k user (.chat conversation)) a.id
        ((k user (.chat conversation) a.id).map fun h => { h with attachment := a }))
    else k
  | .forget user conversation removed =>
    if removed.isDone then k.set user (.chat conversation) fun _ => none else k
  | .restart removed => fun user p => match p with
    | .pending => if (removed (folder M user)).isDone then fun _ => none else k user .pending
    | .chat conversation => k user (.chat conversation)

/-- The files and what they are for, after some operations. -/
def follow (ops : List Op) : Disk × Kept :=
  ops.foldl (fun (d, k) op => (after M d op, k.after M (went M d op) op))
    (fun _ => none, fun _ _ _ => none)

/-- A person added a file that was made ready so, and was answered that it is kept. -/
def Added (ops : List Op) (user : String) (a : Attachment) (kept : Bytes) : Prop :=
  ∃ name bytes, Op.add user name bytes true .done .done ∈ ops ∧ ready M name bytes = some (a, kept)

/-- What a file's id is the hash of. -/
def hashedOf (name : String) (bytes : Bytes) : Option Bytes :=
  if M.isPicture name bytes then (M.prepare bytes).map (·.1)
  else some (M.utf8 name ++ [0] ++ bytes)

/-- What was hashed for the files that were added. -/
def hashed (ops : List Op) : Set Bytes :=
  {x | ∃ user name bytes made data record, Op.add user name bytes made data record ∈ ops ∧
    hashedOf M name bytes = some x}

/-- What the code relies on: the hash tells apart what was added, a picture's kind is told by its
kept bytes, and these begin as no name does. -/
structure Making.Sound (ops : List Op) : Prop where
  injective : Set.InjOn M.hash (hashed M ops)
  kind : ∀ {b b' kept mime mime' w w' h h'}, M.prepare b = some (kept, mime, w, h) →
    M.prepare b' = some (kept, mime', w', h') → mime = mime'
  picture : ∀ {b kept mime w h} name bytes, M.prepare b = some (kept, mime, w, h) →
    kept ≠ M.utf8 name ++ [0] ++ bytes

/-- People and chats have folders of their own, and no chat has the one of pending files. -/
structure Apart (users chats : Set String) : Prop where
  people : Set.InjOn (folder M) users
  talks : Set.InjOn (folder M) chats
  pending : ∀ c ∈ chats, folder M c ≠ pendingDir

def dirOf : Place → String
  | .pending => pendingDir
  | .chat conversation => folder M conversation

def Place.Of (chats : Set String) : Place → Prop
  | .pending => True
  | .chat conversation => conversation ∈ chats

/-- A write that fails leaves what was there. -/
def Written.Clean (d : Disk) (path : Path) : Written → Prop
  | .done => True
  | .failed left => left = d path

/-- A removal that fails leaves all that was there. -/
def Removed.Clean (d : Disk) (person dir : String) : Removed → Prop
  | .done => True
  | .failed left => ∀ name, (d (person, dir, name)).isSome = true → left name = true

/-- A file's two writes leave no part of it: where one fails, what was there is there, and where it
is the record's, the file's bytes were. -/
def CleanAdd (d : Disk) (person : String) (a : Attachment) (bytes : Bytes)
    (data record : Written) : Prop :=
  data.Clean d (person, pendingDir, fileOf a) ∧ (data = .done →
    record.Clean d (person, pendingDir, recordOf a.id) ∧
    (record.isDone = false → d (person, pendingDir, fileOf a) = some (.data bytes)))

/-- The operation is of these people and chats, and what fails in it leaves no part behind; an
update is of a file the chat holds, of its kind. -/
def Meets (users chats : Set String) (d : Disk) (k : Kept) : Op → Prop
  | .add user name bytes made data record =>
    user ∈ users ∧ (made = true → ∀ a kept, ready M name bytes = some (a, kept) →
      CleanAdd d (folder M user) a kept data record)
  | .take user conversation ids _ _ kept =>
    user ∈ users ∧ conversation ∈ chats ∧ ∀ name : Name, name.1 ∈ ids →
      (d (folder M user, folder M conversation, name)).isSome = true → kept name = false
  | .update user conversation a record =>
    user ∈ users ∧ conversation ∈ chats ∧ (isId a.id = true →
      record.Clean d (folder M user, folder M conversation, recordOf a.id) ∧
      (record = .done → ∃ h, k user (.chat conversation) a.id = some h ∧
        extension a.mime = extension h.attachment.mime))
  | .forget user conversation removed =>
    user ∈ users ∧ conversation ∈ chats ∧
      removed.Clean d (folder M user) (folder M conversation)
  | .restart removed => ∀ person, (removed person).Clean d person pendingDir

/-- The files of what is kept in one place. -/
@[grind =]
def filesOf (files : String → Option Held) (name : Name) : Option File :=
  match files name.1 with
  | none => none
  | some h =>
    if name.2 = "json" then some (.record h.attachment)
    else if name.2 = extension h.attachment.mime then some (.data h.bytes)
    else none

/-- The files are those of what is kept, and each was added by whose it is. -/
structure Refines (users chats : Set String) (ops : List Op) (d : Disk) (k : Kept) : Prop where
  files : ∀ u ∈ users, ∀ p : Place, p.Of chats → ∀ name,
    d (folder M u, dirOf M p, name) = filesOf (k u p) name
  owned : ∀ u p id h, k u p id = some h → h.attachment.id = id ∧ ∃ a, Added M ops u a h.bytes ∧
    a.id = id ∧ extension a.mime = extension h.attachment.mime
  known : ∀ person dir name, (d (person, dir, name)).isSome = true →
    ∃ u ∈ users, ∃ p : Place, p.Of chats ∧ person = folder M u ∧ dir = dirOf M p

/-! ### Names -/

section Names

variable {M} {users chats : Set String} {ops : List Op} {d : Disk} {k : Kept}
  {u u' : String} {p p' : Place}

theorem extension_ne (mime : String) : extension mime ≠ "json" := by
  unfold extension
  split <;> decide

theorem Apart.place (hapart : Apart M users chats) (hp : p.Of chats) (hp' : p'.Of chats)
    (h : dirOf M p = dirOf M p') : p = p' := by
  cases p with
  | pending =>
    cases p' with
    | pending => rfl
    | chat c => exact absurd h.symm (hapart.pending c hp')
  | chat c =>
    cases p' with
    | pending => exact absurd h (hapart.pending c hp)
    | chat c' => rw [hapart.talks hp hp' h]

theorem Apart.path (hapart : Apart M users chats) (hu : u ∈ users) (hu' : u' ∈ users)
    (hp : p.Of chats) (hp' : p'.Of chats) {name name' : Name}
    (h : (folder M u, dirOf M p, name) = (folder M u', dirOf M p', name')) :
    u = u' ∧ p = p' ∧ name = name' := by
  obtain ⟨hperson, hrest⟩ := Prod.mk.inj h
  obtain ⟨hdir, hname⟩ := Prod.mk.inj hrest
  exact ⟨hapart.people hu hu' hperson, hapart.place hp hp' hdir, hname⟩

/-- A file's id is the hash of a picture's kept bytes, or of a text file's name and bytes. -/
theorem ready_hashed {name : String} {bytes kept : Bytes} {a : Attachment}
    (h : ready M name bytes = some (a, kept)) :
    ∃ x, hashedOf M name bytes = some x ∧ a.id = M.hash x ∧
      ((∃ w ht, M.prepare bytes = some (x, a.mime, w, ht)) ∨
        x = M.utf8 name ++ [0] ++ bytes ∧ a.mime = "text/plain") := by
  rw [ready] at h
  rw [hashedOf]
  split at h
  · next hpicture =>
    obtain ⟨⟨r, mime, w, ht⟩, hprepare, heq⟩ := Option.map_eq_some_iff.mp h
    obtain ⟨rfl, rfl⟩ := Prod.mk.inj heq
    exact ⟨r, by rw [if_pos hpicture, hprepare]; rfl, rfl, .inl ⟨w, ht, hprepare⟩⟩
  · next hpicture =>
    obtain ⟨⟨r, chars⟩, -, heq⟩ := Option.map_eq_some_iff.mp h
    obtain ⟨rfl, -⟩ := Prod.mk.inj heq
    exact ⟨_, by rw [if_neg hpicture], rfl, .inr ⟨rfl, rfl⟩⟩

/-- A file's id tells its kind. -/
theorem Added.kind (hM : M.Sound ops) {a a' : Attachment} {kept kept' : Bytes}
    (h : Added M ops u a kept) (h' : Added M ops u' a' kept') (hid : a.id = a'.id) :
    extension a.mime = extension a'.mime := by
  obtain ⟨name, bytes, hmem, hready⟩ := h
  obtain ⟨name', bytes', hmem', hready'⟩ := h'
  obtain ⟨x, hx, hhash, hmade⟩ := ready_hashed hready
  obtain ⟨x', hx', hhash', hmade'⟩ := ready_hashed hready'
  obtain rfl := hM.injective ⟨_, _, _, _, _, _, hmem, hx⟩ ⟨_, _, _, _, _, _, hmem', hx'⟩
    (hhash.symm.trans (hid.trans hhash'))
  obtain ⟨w, ht, hprepare⟩ | ⟨htext, hmime⟩ := hmade
  · obtain ⟨w', ht', hprepare'⟩ | ⟨htext', -⟩ := hmade'
    · rw [hM.kind hprepare hprepare']
    · exact absurd htext' (hM.picture _ _ hprepare)
  · obtain ⟨w', ht', hprepare'⟩ | ⟨-, hmime'⟩ := hmade'
    · exact absurd htext (hM.picture _ _ hprepare')
    · rw [hmime, hmime']

/-- Two files of one id, kept anywhere, are of one kind. -/
theorem Refines.kind (hM : M.Sound ops) (h : Refines M users chats ops d k) {id : String}
    {held held' : Held} (hheld : k u p id = some held) (hheld' : k u' p' id = some held') :
    extension held.attachment.mime = extension held'.attachment.mime := by
  obtain ⟨-, a, hadded, hid, hkind⟩ := h.owned u p id held hheld
  obtain ⟨-, a', hadded', hid', hkind'⟩ := h.owned u' p' id held' hheld'
  rw [← hkind, ← hkind', hadded.kind hM hadded' (hid.trans hid'.symm)]

theorem Added.more {ops more : List Op} {a : Attachment} {kept : Bytes}
    (h : Added M ops u a kept) : Added M (ops ++ more) u a kept := by
  obtain ⟨name, bytes, hmem, hready⟩ := h
  exact ⟨name, bytes, List.mem_append_left _ hmem, hready⟩

theorem set_self (k : Kept) (u : String) (p : Place) (files : String → Option Held) :
    k.set u p files u p = files := if_pos ⟨rfl, rfl⟩

theorem set_ne (k : Kept) {files : String → Option Held} (h : ¬(u' = u ∧ p' = p)) :
    k.set u p files u' p' = k u' p' := if_neg h

end Names

/-! ### What `take` moves -/

section Moves

variable {person chat : String} {fails : Name → Bool} {names moved had had' : List Name}
  {d d' d₀ : Disk}

/-- A `take` that stops puts back what it moved. -/
theorem moveAll_error (hback : putBack person chat d moved = d₀)
    (h : moveAll person chat fails names d moved had = .error d') : d' = d₀ := by
  induction names generalizing d moved had with
  | nil => cases h
  | cons name rest ih =>
    rw [moveAll] at h
    split at h
    · exact ih hback h
    · next hchat =>
      split at h
      · exact (Except.error.inj h).symm.trans hback
      · next hmoves =>
        rw [Option.not_isSome_iff_eq_none] at hchat
        rw [not_or] at hmoves
        -- what is moved last is put back first
        have hundo : putBack person chat (Function.update
            (Function.update d (person, chat, name) (d (person, pendingDir, name)))
            (person, pendingDir, name) none) (name :: moved) = putBack person chat d moved := by
          rw [putBack, List.foldl_cons, putBack]
          congr 1
          have hne : (person, chat, name) ≠ (person, pendingDir, name) :=
            fun heq => hmoves.2 (heq ▸ hchat)
          funext path
          by_cases hpath : path = (person, chat, name)
          · rw [hpath, Function.update_self, hchat]
          · rw [Function.update_of_ne hpath]
            by_cases hpath' : path = (person, pendingDir, name)
            · rw [hpath', Function.update_self, Function.update_of_ne hne,
                Function.update_self]
            · rw [Function.update_of_ne hpath', Function.update_of_ne hpath',
                Function.update_of_ne hpath]
        exact ih (hundo.trans hback) h

/-- What is where after all is moved: the chat has what it had or what was pending, and what it had
not is pending no more. -/
theorem moveAll_ok (hne : chat ≠ pendingDir) (hnodup : names.Nodup)
    (h : moveAll person chat fails names d moved had = .ok (d', had')) :
    had' = had ++ names.filter (fun name => (d (person, chat, name)).isSome) ∧
      (∀ name ∈ names, d' (person, chat, name) =
        (d (person, chat, name)).or (d (person, pendingDir, name))) ∧
      (∀ name ∈ names, (d (person, chat, name)).isSome = false →
        d' (person, pendingDir, name) = none) ∧
      (∀ name ∈ names, (d (person, chat, name)).isSome = true →
        d' (person, pendingDir, name) = d (person, pendingDir, name)) ∧
      ∀ path, (∀ name ∈ names, path ≠ (person, chat, name) ∧ path ≠ (person, pendingDir, name)) →
        d' path = d path := by
  induction names generalizing d moved had with
  | nil =>
    obtain ⟨rfl, rfl⟩ := Prod.mk.inj (Except.ok.inj h)
    exact ⟨(List.append_nil _).symm, nofun, nofun, nofun, fun _ _ => rfl⟩
  | cons name rest ih =>
    obtain ⟨hname, hrest⟩ := List.nodup_cons.mp hnodup
    have hapart : ∀ other ∈ rest, other ≠ name := fun other hmem heq => hname (heq ▸ hmem)
    have hchats : ∀ other other' : Name, (person, chat, other) ≠ (person, pendingDir, other') :=
      fun _ _ heq => hne (Prod.mk.inj (Prod.mk.inj heq).2).1
    -- the first file's places are none of the others'
    have hplaces : ∀ other ∈ rest, ((person, chat, name) ≠ (person, chat, other) ∧
        (person, chat, name) ≠ (person, pendingDir, other)) ∧
        (person, pendingDir, name) ≠ (person, chat, other) ∧
          (person, pendingDir, name) ≠ (person, pendingDir, other) := by
      intro other hmem
      have hother := hapart other hmem
      exact ⟨⟨fun heq => hother (Prod.mk.inj (Prod.mk.inj heq).2).2.symm, hchats _ _⟩,
        (hchats _ _).symm, fun heq => hother (Prod.mk.inj (Prod.mk.inj heq).2).2.symm⟩
    rw [moveAll] at h
    split at h
    · next hchat =>
      obtain ⟨hhad, hthere, hgone, hstays, helse⟩ := ih hrest h
      have hat := helse (person, chat, name) fun other hmem => (hplaces other hmem).1
      have hfrom := helse (person, pendingDir, name) fun other hmem => (hplaces other hmem).2
      refine ⟨?_, ?_, ?_, ?_, ?_⟩
      · rw [hhad, List.filter_cons, if_pos hchat, List.append_assoc, List.singleton_append]
      · intro other hmem
        obtain rfl | hmem := List.mem_cons.mp hmem
        · obtain ⟨file, hfile⟩ := Option.isSome_iff_exists.mp hchat
          rw [hat, hfile, Option.some_or]
        · exact hthere other hmem
      · intro other hmem hnone
        obtain rfl | hmem := List.mem_cons.mp hmem
        · rw [hchat] at hnone
          cases hnone
        · exact hgone other hmem hnone
      · intro other hmem hsome
        obtain rfl | hmem := List.mem_cons.mp hmem
        · exact hfrom
        · exact hstays other hmem hsome
      · exact fun path hpath => helse path fun other hmem =>
          hpath other (List.mem_cons_of_mem _ hmem)
    · next hchat =>
      split at h
      · cases h
      · next hmoves =>
        obtain ⟨hhad, hthere, hgone, hstays, helse⟩ := ih hrest h
        have hat := helse (person, chat, name) fun other hmem => (hplaces other hmem).1
        have hfrom := helse (person, pendingDir, name) fun other hmem => (hplaces other hmem).2
        rw [Option.not_isSome_iff_eq_none] at hchat
        -- the others are where they were
        have hothers : ∀ other ∈ rest, ∀ dir, Function.update
            (Function.update d (person, chat, name) (d (person, pendingDir, name)))
            (person, pendingDir, name) none (person, dir, other) = d (person, dir, other) := by
          intro other hmem dir
          have hother := hapart other hmem
          rw [Function.update_of_ne fun heq => hother (Prod.mk.inj (Prod.mk.inj heq).2).2,
            Function.update_of_ne fun heq => hother (Prod.mk.inj (Prod.mk.inj heq).2).2]
        refine ⟨?_, ?_, ?_, ?_, ?_⟩
        · rw [hhad, List.filter_cons, if_neg (by rw [hchat]; exact Bool.false_ne_true)]
          congr 1
          exact List.filter_congr fun other hmem => by rw [hothers other hmem]
        · intro other hmem
          obtain rfl | hmem := List.mem_cons.mp hmem
          · rw [hat, Function.update_of_ne (hchats _ _), Function.update_self, hchat,
              Option.none_or]
          · rw [hthere other hmem, hothers other hmem, hothers other hmem]
        · intro other hmem hnone
          obtain rfl | hmem := List.mem_cons.mp hmem
          · rw [hfrom, Function.update_self]
          · exact hgone other hmem (by rw [hothers other hmem]; exact hnone)
        · intro other hmem hsome
          obtain rfl | hmem := List.mem_cons.mp hmem
          · rw [hchat] at hsome
            cases hsome
          · rw [hstays other hmem (by rw [hothers other hmem]; exact hsome), hothers other hmem]
        · intro path hpath
          rw [helse path fun other hmem => hpath other (List.mem_cons_of_mem _ hmem),
            Function.update_of_ne (hpath name List.mem_cons_self).2,
            Function.update_of_ne (hpath name List.mem_cons_self).1]

theorem dropAll_eq (hfails : ∀ name ∈ names, fails name = false) (path : Path) :
    dropAll person fails d names path =
      if ∃ name ∈ names, path = (person, pendingDir, name) then none else d path := by
  induction names generalizing d with
  | nil => rfl
  | cons name rest ih =>
    have hrest : dropAll person fails d (name :: rest) =
        dropAll person fails (Function.update d (person, pendingDir, name) none) rest := by
      rw [dropAll, List.foldl_cons, hfails name List.mem_cons_self, if_neg Bool.false_ne_true]
      rfl
    rw [hrest, ih fun other hmem => hfails other (List.mem_cons_of_mem _ hmem)]
    by_cases hsome : ∃ other ∈ rest, path = (person, pendingDir, other)
    · obtain ⟨other, hmem, hpath⟩ := hsome
      rw [if_pos ⟨other, hmem, hpath⟩, if_pos ⟨other, List.mem_cons_of_mem _ hmem, hpath⟩]
    · rw [if_neg hsome]
      by_cases hpath : path = (person, pendingDir, name)
      · rw [hpath, Function.update_self, if_pos ⟨name, List.mem_cons_self, rfl⟩]
      · rw [Function.update_of_ne hpath, if_neg]
        rintro ⟨other, hmem, heq⟩
        obtain rfl | hmem := List.mem_cons.mp hmem
        · exact hpath heq
        · exact hsome ⟨other, hmem, heq⟩

/-- After a `take` that goes through: nothing of it is pending, and the chat has what it had or what
was pending. -/
theorem moved_files (hne : chat ≠ pendingDir) (hnodup : names.Nodup) {kept : Name → Bool}
    (hkept : ∀ name ∈ names, (d (person, chat, name)).isSome = true → kept name = false)
    (h : moveAll person chat fails names d [] [] = .ok (d', had)) :
    (∀ name ∈ names, dropAll person kept d' had (person, pendingDir, name) = none) ∧
      (∀ name ∈ names, dropAll person kept d' had (person, chat, name) =
        (d (person, chat, name)).or (d (person, pendingDir, name))) ∧
      ∀ path, (∀ name ∈ names, path ≠ (person, chat, name) ∧ path ≠ (person, pendingDir, name)) →
        dropAll person kept d' had path = d path := by
  obtain ⟨hhad, hthere, hgone, -, helse⟩ := moveAll_ok hne hnodup h
  rw [List.nil_append] at hhad
  subst hhad
  replace hkept : ∀ name ∈ names.filter (fun name => (d (person, chat, name)).isSome),
      kept name = false := by
    intro name hmem
    obtain ⟨hmem, hchat⟩ := List.mem_filter.mp hmem
    exact hkept name hmem hchat
  refine ⟨?_, ?_, ?_⟩
  · intro name hmem
    rw [dropAll_eq hkept]
    cases hchat : (d (person, chat, name)).isSome with
    | true => rw [if_pos ⟨name, List.mem_filter.mpr ⟨hmem, hchat⟩, rfl⟩]
    | false =>
      rw [hgone name hmem hchat]
      exact ite_self _
  · intro name hmem
    rw [dropAll_eq hkept, if_neg, hthere name hmem]
    rintro ⟨other, -, heq⟩
    exact hne (Prod.mk.inj (Prod.mk.inj heq).2).1
  · intro path hpath
    rw [dropAll_eq hkept, if_neg, helse path hpath]
    rintro ⟨other, hmem, heq⟩
    exact (hpath other (List.mem_filter.mp hmem).1).2 heq

end Moves

/-- **A `take` that fails leaves both folders as they were**, whatever fails in it. -/
theorem take_refused {d : Disk} {user conversation : String} {ids : List String} {made : Bool}
    {fails kept : Name → Bool}
    (h : (take M d user conversation ids made fails kept).1.isOk = false) :
    (take M d user conversation ids made fails kept).2 = d := by
  rw [take] at h ⊢
  split at h
  · next hmany => rw [if_pos hmany]
  · next hmany =>
    rw [if_neg hmany]
    cases hgather : gather d (folder M user) ids [] with
    | none => rfl
    | some taken =>
      rw [hgather] at h
      dsimp only at h ⊢
      cases made with
      | false => rfl
      | true =>
        rw [if_pos rfl] at h ⊢
        cases hmove : moveAll (folder M user) (folder M conversation) fails (namesOf taken) d
            [] [] with
        | error d' => exact moveAll_error rfl hmove
        | ok moved =>
          rw [hmove] at h
          cases h

/-! ### The files are what they are for -/

section Steps

variable {M} {users chats : Set String} {ops : List Op} {d : Disk} {k : Kept} {u user : String}

/-- What is known of a pending file is what is kept. -/
theorem Refines.readMeta (h : Refines M users chats ops d k) (hu : u ∈ users) {p : Place}
    (hp : p.Of chats) {id : String} {a : Attachment}
    (hread : readMeta d (folder M u) (dirOf M p) id = some a) :
    ∃ bytes, k u p id = some ⟨a, bytes⟩ ∧ a.id = id := by
  rw [Attachments.readMeta] at hread
  split at hread
  · rw [h.files u hu p hp, filesOf, recordOf] at hread
    dsimp only at hread
    cases hheld : k u p id with
    | none =>
      rw [hheld] at hread
      cases hread
    | some held =>
      rw [hheld] at hread
      dsimp only at hread
      rw [if_pos rfl] at hread
      dsimp only at hread
      split at hread
      · next hid =>
        obtain rfl := Option.some.inj hread
        exact ⟨held.bytes, rfl, hid⟩
      · cases hread
  · cases hread

/-- What is gathered is pending, and each id once. -/
theorem gather_spec {person : String} {ids : List String} {taken all : List Attachment}
    (h : gather d person ids taken = some all) (hnodup : (taken.map (·.id)).Nodup) :
    (all.map (·.id)).Nodup ∧ (∀ a ∈ all, a ∈ taken ∨ a.id ∈ ids ∧
        Attachments.readMeta d person pendingDir a.id = some a) ∧
      (∀ a ∈ taken, a ∈ all) ∧ ∀ id ∈ ids, ∃ a ∈ all, a.id = id := by
  induction ids generalizing taken with
  | nil =>
    obtain rfl := Option.some.inj h
    exact ⟨hnodup, fun a ha => .inl ha, fun a ha => ha, nofun⟩
  | cons id rest ih =>
    rw [gather] at h
    split at h
    · next hany =>
      obtain ⟨hall, hfrom, hkeeps, hids⟩ := ih h hnodup
      refine ⟨hall, fun a ha => ?_, hkeeps, fun other hmem => ?_⟩
      · exact (hfrom a ha).imp_right fun h => ⟨List.mem_cons_of_mem _ h.1, h.2⟩
      · obtain rfl | hmem := List.mem_cons.mp hmem
        · obtain ⟨a, ha, hid⟩ := List.any_eq_true.mp hany
          exact ⟨a, hkeeps a ha, of_decide_eq_true hid⟩
        · exact hids other hmem
    · next hany =>
      split at h
      · cases h
      · next a hread =>
        have hid : a.id = id := by
          rw [Attachments.readMeta] at hread
          split at hread
          · split at hread
            · split at hread
              · next hid =>
                obtain rfl := Option.some.inj hread
                exact hid
              · cases hread
            · cases hread
          · cases hread
        have hnew : ((taken ++ [a]).map (·.id)).Nodup := by
          rw [List.map_append, List.map_singleton, List.nodup_append]
          refine ⟨hnodup, List.nodup_singleton _, ?_⟩
          rintro other hother _ hlast rfl
          rw [List.mem_singleton] at hlast
          obtain ⟨b, hb, heq⟩ := List.mem_map.mp hother
          refine hany (List.any_eq_true.mpr ⟨b, hb, decide_eq_true ?_⟩)
          rw [heq, hlast, hid]
        obtain ⟨hall, hfrom, hkeeps, hids⟩ := ih h hnew
        refine ⟨hall, fun b hb => ?_, fun b hb => hkeeps b (List.mem_append_left _ hb),
          fun other hmem => ?_⟩
        · obtain hmem | ⟨hmem, hread'⟩ := hfrom b hb
          · obtain hold | hlast := List.mem_append.mp hmem
            · exact .inl hold
            · rw [List.mem_singleton] at hlast
              subst hlast
              exact .inr ⟨hid ▸ List.mem_cons_self, by rw [hid]; exact hread⟩
          · exact .inr ⟨List.mem_cons_of_mem _ hmem, hread'⟩
        · obtain rfl | hmem := List.mem_cons.mp hmem
          · exact ⟨a, hkeeps a (List.mem_append_right _ List.mem_cons_self), hid⟩
          · exact hids other hmem

theorem mem_namesOf {taken : List Attachment} {name : Name} :
    name ∈ namesOf taken ↔
      ∃ a ∈ taken, name.1 = a.id ∧ (name.2 = extension a.mime ∨ name.2 = "json") := by
  rw [namesOf, List.mem_flatMap]
  refine exists_congr fun a => and_congr_right fun _ => ?_
  obtain ⟨id, ext⟩ := name
  simp only [List.mem_cons, List.not_mem_nil, or_false, fileOf, recordOf, Prod.mk.injEq]
  tauto

theorem nodup_namesOf {taken : List Attachment} (h : (taken.map (·.id)).Nodup) :
    (namesOf taken).Nodup := by
  induction taken with
  | nil => exact List.nodup_nil
  | cons a rest ih =>
    rw [List.map_cons, List.nodup_cons] at h
    have hsplit : namesOf (a :: rest) = [fileOf a, recordOf a.id] ++ namesOf rest := rfl
    rw [hsplit, List.nodup_append]
    refine ⟨?_, ih h.2, ?_⟩
    · rw [List.nodup_cons]
      refine ⟨fun hmem => ?_, List.nodup_singleton _⟩
      rw [List.mem_singleton] at hmem
      exact extension_ne a.mime (Prod.mk.inj hmem).2
    · rintro name hname _ hother rfl
      obtain ⟨b, hb, hid, -⟩ := mem_namesOf.mp hother
      refine h.1 (List.mem_map.mpr ⟨b, hb, ?_⟩)
      rw [← hid]
      simp only [List.mem_cons, List.not_mem_nil, or_false] at hname
      obtain rfl | rfl := hname <;> rfl

/-- The files of a place with one file more, or another. -/
theorem filesOf_update {files : String → Option Held} {held : Held} {id : String} (name : Name)
    (hkind : ∀ old, files id = some old →
      extension old.attachment.mime = extension held.attachment.mime) :
    filesOf (Function.update files id (some held)) name =
      if name = (id, "json") then some (.record held.attachment)
      else if name = (id, extension held.attachment.mime) then some (.data held.bytes)
      else filesOf files name := by
  obtain ⟨id', ext⟩ := name
  rw [filesOf]
  dsimp only
  by_cases hid : id' = id
  · subst hid
    rw [Function.update_self]
    dsimp only
    by_cases hjson : ext = "json"
    · rw [if_pos hjson, if_pos (by rw [hjson])]
    · rw [if_neg hjson, if_neg fun h => hjson (Prod.mk.inj h).2]
      by_cases hext : ext = extension held.attachment.mime
      · rw [if_pos hext, if_pos (by rw [hext])]
      · rw [if_neg hext, if_neg fun h => hext (Prod.mk.inj h).2, filesOf]
        dsimp only
        cases hold : files id' with
        | none => rfl
        | some old =>
          dsimp only
          rw [if_neg hjson, if_neg fun h => hext (h.trans (hkind old hold))]
  · rw [Function.update_of_ne hid, if_neg fun h => hid (Prod.mk.inj h).1,
      if_neg fun h => hid (Prod.mk.inj h).1, filesOf]

end Steps

section Runs

variable {M} {users chats : Set String} {ops ops' : List Op} {d d' : Disk} {k : Kept}
  {user : String} {p : Place}

theorem Refines.more (hsub : ∀ u a kept, Added M ops u a kept → Added M ops' u a kept)
    (h : Refines M users chats ops d k) : Refines M users chats ops' d k where
  files := h.files
  owned u p id held hheld := by
    obtain ⟨hid, a, hadded, hrest⟩ := h.owned u p id held hheld
    exact ⟨hid, a, hsub u a _ hadded, hrest⟩
  known := h.known

/-- A file more in a place, or another record of it. -/
theorem Refines.put (hapart : Apart M users chats) (h : Refines M users chats ops d k)
    (hu : user ∈ users) (hp : p.Of chats) (held : Held) {id : String}
    (howned : held.attachment.id = id ∧ ∃ a, Added M ops user a held.bytes ∧ a.id = id ∧
      extension a.mime = extension held.attachment.mime)
    (hkind : ∀ old, k user p id = some old →
      extension old.attachment.mime = extension held.attachment.mime)
    (dir : String) (hdir : dirOf M p = dir) (hd : ∀ path, d' path =
      if path = (folder M user, dir, (id, "json")) then some (.record held.attachment)
      else if path = (folder M user, dir, (id, extension held.attachment.mime)) then
        some (.data held.bytes)
      else d path) :
    Refines M users chats ops d'
      (k.set user p (Function.update (k user p) id (some held))) where
  files u hu' p' hp' name := by
    subst hdir
    rw [hd]
    by_cases hsame : u = user ∧ p' = p
    · obtain ⟨rfl, rfl⟩ := hsame
      rw [set_self, filesOf_update name hkind, h.files u hu' p' hp' name]
      simp only [Prod.mk.injEq, true_and]
    · have hne : ∀ name', (folder M u, dirOf M p', name) ≠ (folder M user, dirOf M p, name') := by
        intro name' heq
        obtain ⟨hu, hp, -⟩ := hapart.path hu' hu hp' hp heq
        exact hsame ⟨hu, hp⟩
      rw [if_neg (hne _), if_neg (hne _), set_ne k hsame, h.files u hu' p' hp' name]
  owned u p' id' held' hheld := by
    by_cases hsame : u = user ∧ p' = p
    · obtain ⟨rfl, rfl⟩ := hsame
      rw [set_self] at hheld
      by_cases hid : id' = id
      · subst hid
        rw [Function.update_self] at hheld
        obtain rfl := Option.some.inj hheld
        exact howned
      · rw [Function.update_of_ne hid] at hheld
        exact h.owned u p' id' held' hheld
    · rw [set_ne k hsame] at hheld
      exact h.owned u p' id' held' hheld
  known person dir name hsome := by
    subst hdir
    rw [hd] at hsome
    split at hsome
    · next hpath =>
      obtain ⟨hperson, hrest⟩ := Prod.mk.inj hpath
      exact ⟨user, hu, p, hp, hperson, (Prod.mk.inj hrest).1⟩
    · split at hsome
      · next hpath =>
        obtain ⟨hperson, hrest⟩ := Prod.mk.inj hpath
        exact ⟨user, hu, p, hp, hperson, (Prod.mk.inj hrest).1⟩
      · exact h.known person dir name hsome

/-- Some places emptied. -/
theorem Refines.empty (h : Refines M users chats ops d k) (gone : String → Place → Prop)
    {k' : Kept} (hgone : ∀ u p, gone u p → k' u p = fun _ => none)
    (hstays : ∀ u p, ¬gone u p → k' u p = k u p)
    (hnone : ∀ u ∈ users, ∀ p : Place, p.Of chats → gone u p → ∀ name,
      d' (folder M u, dirOf M p, name) = none)
    (hsame : ∀ u ∈ users, ∀ p : Place, p.Of chats → ¬gone u p → ∀ name,
      d' (folder M u, dirOf M p, name) = d (folder M u, dirOf M p, name))
    (hfewer : ∀ path, (d' path).isSome = true → (d path).isSome = true) :
    Refines M users chats ops d' k' where
  files u hu p hp name := by
    by_cases hpath : gone u p
    · rw [hnone u hu p hp hpath, hgone u p hpath]
      rfl
    · rw [hsame u hu p hp hpath, hstays u p hpath]
      exact h.files u hu p hp name
  owned u p id held hheld := by
    by_cases hpath : gone u p
    · rw [hgone u p hpath] at hheld
      cases hheld
    · rw [hstays u p hpath] at hheld
      exact h.owned u p id held hheld
  known person dir name hsome := h.known person dir name (hfewer _ hsome)

/-- An `add` that is answered `Ok` has been written. -/
theorem add_isOk {name : String} {bytes : Bytes} {made : Bool} {data record : Written}
    (h : (add M d user name bytes made data record).1.isOk = true) :
    made = true ∧ data = .done ∧ record = .done := by
  rw [add] at h
  split at h
  · cases h
  · cases made with
    | false => cases h
    | true =>
      cases data with
      | failed _ => cases h
      | done =>
        cases record with
        | failed _ => cases h
        | done => exact ⟨rfl, rfl, rfl⟩

/-- One that is answered an error leaves the files as they were. -/
theorem add_refused {name : String} {bytes : Bytes} {made : Bool} {data record : Written}
    (hclean : made = true → ∀ a kept, ready M name bytes = some (a, kept) →
      CleanAdd d (folder M user) a kept data record)
    (h : (add M d user name bytes made data record).1.isOk = false) :
    (add M d user name bytes made data record).2 = d := by
  rw [add] at h ⊢
  cases hready : ready M name bytes with
  | none => rfl
  | some ready =>
    obtain ⟨a, kept⟩ := ready
    rw [hready] at h
    cases made with
    | false => rfl
    | true =>
      obtain ⟨hdata, hrecord⟩ := hclean rfl a kept hready
      cases data with
      | failed left =>
        obtain rfl : left = _ := hdata
        exact Function.update_eq_self _ _
      | done =>
        obtain ⟨hrecord, hwas⟩ := hrecord rfl
        cases record with
        | done => cases h
        | failed left =>
          obtain rfl : left = _ := hrecord
          have hsame : write d (folder M user, pendingDir, fileOf a) (.data kept) .done = d := by
            rw [write, ← hwas rfl]
            exact Function.update_eq_self _ _
          dsimp only [keepPending]
          rw [if_pos rfl]
          dsimp only
          rw [hsame]
          exact Function.update_eq_self _ _

theorem add_refines (hM : M.Sound ops) (hapart : Apart M users chats)
    (h : Refines M users chats ops d k) (hu : user ∈ users) (name : String) (bytes : Bytes)
    (hadd : ∀ a kept, ready M name bytes = some (a, kept) → Added M ops user a kept) :
    Refines M users chats ops (after M d (.add user name bytes true .done .done))
      (k.after M true (.add user name bytes true .done .done)) := by
  rw [after, Kept.after, add]
  cases hready : ready M name bytes with
  | none => exact h
  | some made =>
    obtain ⟨a, kept⟩ := made
    dsimp only
    rw [if_pos rfl]
    refine h.put hapart hu (p := .pending) trivial ⟨a, kept⟩
      ⟨rfl, a, hadd a kept hready, rfl, rfl⟩ ?_
      pendingDir rfl fun path => ?_
    · intro old hold
      obtain ⟨-, b, hadded, hid, hkind⟩ := h.owned _ _ _ _ hold
      rw [← hkind]
      exact hadded.kind hM (hadd a kept hready) hid
    · dsimp only [keepPending, write]
      rw [if_pos rfl]
      dsimp only
      by_cases hpath : path = (folder M user, pendingDir, (a.id, "json"))
      · rw [hpath, if_pos rfl]
        exact Function.update_self _ _ _
      · rw [if_neg hpath]
        refine (Function.update_of_ne hpath _ _).trans ?_
        by_cases hdata : path = (folder M user, pendingDir, (a.id, extension a.mime))
        · rw [hdata, if_pos rfl]
          exact Function.update_self _ _ _
        · rw [if_neg hdata]
          exact Function.update_of_ne hdata _ _

theorem update_refines (hapart : Apart M users chats) (h : Refines M users chats ops d k)
    {conversation : String} (hu : user ∈ users) (hc : conversation ∈ chats) (a : Attachment)
    {record : Written} (hmeets : isId a.id = true →
      record.Clean d (folder M user, folder M conversation, recordOf a.id) ∧
      (record = .done → ∃ held, k user (.chat conversation) a.id = some held ∧
        extension a.mime = extension held.attachment.mime)) (ok : Bool) :
    Refines M users chats ops (after M d (.update user conversation a record))
      (k.after M ok (.update user conversation a record)) := by
  rw [after, Kept.after, update]
  cases hid : isId a.id with
  | false => exact h
  | true =>
    obtain ⟨hclean, hheld⟩ := hmeets hid
    rw [if_pos rfl]
    cases record with
    | failed left =>
      obtain rfl : left = _ := hclean
      rw [write, Function.update_eq_self]
      exact h
    | done =>
    rw [Bool.true_and, Written.isDone, if_pos rfl]
    obtain ⟨held, hsome, hkind⟩ := hheld rfl
    obtain ⟨hheldId, b, hadded, hbid, hbkind⟩ := h.owned _ _ _ _ hsome
    have hdata : d (folder M user, dirOf M (.chat conversation), (a.id, extension a.mime)) =
        some (.data held.bytes) := by
      rw [h.files user hu (.chat conversation) hc, filesOf]
      dsimp only
      rw [hsome]
      dsimp only
      rw [if_neg (extension_ne a.mime), if_pos hkind]
    rw [hsome, Option.map_some]
    refine h.put hapart hu (p := .chat conversation) hc ⟨a, held.bytes⟩
      ⟨rfl, b, hadded, hbid, hbkind.trans hkind.symm⟩ ?_
      (folder M conversation) rfl fun path => ?_
    · intro old hold
      obtain rfl := Option.some.inj (hsome.symm.trans hold)
      exact hkind.symm
    · dsimp only [write]
      by_cases hpath : path = (folder M user, folder M conversation, (a.id, "json"))
      · rw [hpath, if_pos rfl]
        exact Function.update_self _ _ _
      · rw [if_neg hpath]
        refine (Function.update_of_ne hpath _ _).trans ?_
        split
        · next heq =>
          rw [heq]
          exact hdata
        · rfl

/-- A removal that fails and leaves all there was has removed nothing. -/
theorem removeDir_left {person dir : String} {left : Name → Bool}
    (hclean : (Removed.failed left).Clean d person dir) :
    removeDir d person dir (Removed.failed left).leaves = d := by
  funext ⟨person', dir', name⟩
  rw [removeDir]
  split
  · next hpath =>
    obtain ⟨rfl, rfl, hgone⟩ := hpath
    cases hthere : d (person', dir', name) with
    | none => rfl
    | some file =>
      rw [Removed.leaves, hclean name (Option.isSome_of_eq_some hthere)] at hgone
      cases hgone
  · rfl

theorem forget_refines (hapart : Apart M users chats) (h : Refines M users chats ops d k)
    {conversation : String} (hu : user ∈ users) (hc : conversation ∈ chats) {removed : Removed}
    (hclean : removed.Clean d (folder M user) (folder M conversation)) (ok : Bool) :
    Refines M users chats ops (after M d (.forget user conversation removed))
      (k.after M ok (.forget user conversation removed)) := by
  rw [after, Kept.after, forget]
  cases removed with
  | failed left =>
    rw [removeDir_left hclean]
    exact h
  | done =>
  rw [Removed.isDone, if_pos rfl]
  refine h.empty (fun u p => u = user ∧ p = .chat conversation) ?_ ?_ ?_ ?_ ?_
  · rintro u p ⟨rfl, rfl⟩
    exact set_self _ _ _ _
  · exact fun u p hne => set_ne k hne
  · rintro u - p - ⟨rfl, rfl⟩ name
    exact if_pos ⟨rfl, rfl, rfl⟩
  · intro u hu' p hp hne name
    refine if_neg fun heq => hne ?_
    have hpath : (folder M u, dirOf M p, name) =
        (folder M user, dirOf M (.chat conversation), name) := by
      rw [heq.1, heq.2.1]
      rfl
    obtain ⟨hperson, hplace, -⟩ :=
      @Apart.path M users chats u user p (.chat conversation) hapart hu' hu hp hc _ _ hpath
    exact ⟨hperson, hplace⟩
  · rintro ⟨person, dir, name⟩ hsome
    rw [removeDir] at hsome
    split at hsome
    · cases hsome
    · exact hsome

theorem restart_refines (hapart : Apart M users chats) (h : Refines M users chats ops d k)
    {removed : String → Removed} (hclean : ∀ person, (removed person).Clean d person pendingDir)
    (ok : Bool) :
    Refines M users chats ops (after M d (.restart removed)) (k.after M ok (.restart removed)) := by
  rw [after, Kept.after]
  refine h.empty (fun u p => p = .pending ∧ (removed (folder M u)).isDone = true) ?_ ?_ ?_ ?_ ?_
  · rintro u p ⟨rfl, hdone⟩
    exact if_pos hdone
  · intro u p hne
    cases p with
    | pending => exact if_neg fun hdone => hne ⟨rfl, hdone⟩
    | chat c => rfl
  · rintro u - p - ⟨rfl, hdone⟩ name
    refine if_pos ⟨rfl, ?_⟩
    cases hremoved : removed (folder M u) with
    | done => rfl
    | failed left =>
      rw [hremoved] at hdone
      cases hdone
  · intro u hu p hp hne name
    rw [clearPending]
    split
    · next hpath =>
      obtain rfl := @Apart.place M users chats p .pending hapart hp trivial hpath.1
      -- the person's folder is left as it was
      have hu := hclean (folder M u)
      cases hremoved : removed (folder M u) with
      | done => exact absurd ⟨rfl, by rw [hremoved]; rfl⟩ hne
      | failed left =>
        rw [hremoved] at hpath hu
        cases hthere : d (folder M u, dirOf M .pending, name) with
        | none => rfl
        | some file =>
          rw [Removed.leaves, hu name (Option.isSome_of_eq_some hthere)] at hpath
          cases hpath.2
    · rfl
  · rintro ⟨person, dir, name⟩ hsome
    rw [clearPending] at hsome
    split at hsome
    · cases hsome
    · exact hsome

end Runs

section Taken

variable {M} {users chats : Set String} {ops : List Op} {d d' : Disk} {k : Kept}
  {user conversation : String} {ids : List String} {taken : List Attachment} {name : Name}

/-- What a `take` that goes through moves: all that is pending of some ids goes to a chat, but for
the files the chat has. -/
structure Moved (M : Making) (user conversation : String) (ids : List String)
    (taken : List Attachment) (d d' : Disk) : Prop where
  pending : ∀ a ∈ taken, a.id ∈ ids ∧
    Attachments.readMeta d (folder M user) pendingDir a.id = some a
  all : ∀ id ∈ ids, ∃ a ∈ taken, a.id = id
  gone : ∀ name ∈ namesOf taken, d' (folder M user, pendingDir, name) = none
  there : ∀ name ∈ namesOf taken, d' (folder M user, folder M conversation, name) =
    (d (folder M user, folder M conversation, name)).or (d (folder M user, pendingDir, name))
  elsewhere : ∀ path, (∀ name ∈ namesOf taken,
    path ≠ (folder M user, folder M conversation, name) ∧
      path ≠ (folder M user, pendingDir, name)) → d' path = d path

theorem Moved.mem_ids (hmoved : Moved M user conversation ids taken d d')
    (hmem : name ∈ namesOf taken) : name.1 ∈ ids := by
  obtain ⟨a, ha, heq, -⟩ := mem_namesOf.mp hmem
  exact heq ▸ (hmoved.pending a ha).1

/-- What is not taken stays. -/
theorem Moved.same (hmoved : Moved M user conversation ids taken d d')
    (hmem : name ∉ namesOf taken) :
    d' (folder M user, folder M conversation, name) =
        d (folder M user, folder M conversation, name) ∧
      d' (folder M user, pendingDir, name) = d (folder M user, pendingDir, name) := by
  have hname : ∀ {dir dir' : String} {other : Name}, other ∈ namesOf taken →
      (folder M user, dir, name) ≠ (folder M user, dir', other) := by
    intro dir dir' other hother heq
    rw [(Prod.mk.inj (Prod.mk.inj heq).2).2] at hmem
    exact hmem hother
  exact ⟨hmoved.elsewhere _ fun other hother => ⟨hname hother, hname hother⟩,
    hmoved.elsewhere _ fun other hother => ⟨hname hother, hname hother⟩⟩

/-- What is taken was pending, whole. -/
theorem Moved.held (hmoved : Moved M user conversation ids taken d d')
    (h : Refines M users chats ops d k) (hu : user ∈ users) {a : Attachment} (ha : a ∈ taken) :
    ∃ bytes, k user .pending a.id = some ⟨a, bytes⟩ := by
  obtain ⟨bytes, hbytes, -⟩ := h.readMeta hu (p := .pending) trivial (hmoved.pending a ha).2
  exact ⟨bytes, hbytes⟩

/-- Of the names of what is taken, only its record's and its kind's are files. -/
theorem Moved.no_file (hmoved : Moved M user conversation ids taken d d') (hM : M.Sound ops)
    (h : Refines M users chats ops d k) (hu : user ∈ users) (hid : name.1 ∈ ids)
    (hmem : name ∉ namesOf taken) : filesOf (k user .pending) name = none ∧
      filesOf (k user (.chat conversation)) name = none := by
  obtain ⟨a, ha, heq⟩ := hmoved.all name.1 hid
  obtain ⟨bytes, hbytes⟩ := hmoved.held h hu ha
  rw [heq] at hbytes
  have hjson : name.2 ≠ "json" := fun h => hmem (mem_namesOf.mpr ⟨a, ha, heq.symm, .inr h⟩)
  have hext : name.2 ≠ extension a.mime :=
    fun h => hmem (mem_namesOf.mpr ⟨a, ha, heq.symm, .inl h⟩)
  constructor
  · rw [filesOf, hbytes]
    dsimp only
    rw [if_neg hjson, if_neg hext]
  · rw [filesOf]
    cases hchat : k user (.chat conversation) name.1 with
    | none => rfl
    | some held =>
      dsimp only
      rw [if_neg hjson, if_neg]
      rw [h.kind hM hchat hbytes]
      exact hext

/-- A file of the chat is what it was, or what was pending. -/
theorem Moved.chat (hmoved : Moved M user conversation ids taken d d') (hM : M.Sound ops)
    (h : Refines M users chats ops d k) (hu : user ∈ users)
    (hc : conversation ∈ chats) (name : Name) :
    d' (folder M user, folder M conversation, name) = filesOf (fun id =>
      if id ∈ ids then (k user (.chat conversation) id).or (k user .pending id)
      else k user (.chat conversation) id) name := by
  have hold := h.files user hu (.chat conversation) hc name
  have hpend := h.files user hu .pending trivial name
  change d (folder M user, folder M conversation, name) = _ at hold
  change d (folder M user, pendingDir, name) = _ at hpend
  by_cases hmem : name ∈ namesOf taken
  · rw [hmoved.there name hmem, hold, hpend, filesOf, filesOf, filesOf,
      if_pos (hmoved.mem_ids hmem)]
    obtain ⟨a, ha, heq, hname⟩ := mem_namesOf.mp hmem
    cases hchat : k user (.chat conversation) name.1 with
    | none => rw [Option.none_or, Option.none_or]
    | some held =>
      rw [Option.some_or]
      dsimp only
      obtain ⟨bytes, hbytes⟩ := hmoved.held h hu ha
      rw [← heq] at hbytes
      by_cases hjson : name.2 = "json"
      · rw [if_pos hjson, Option.some_or]
      · have hext : name.2 = extension held.attachment.mime := by
          rw [h.kind hM hchat hbytes]
          exact hname.resolve_right hjson
        rw [if_neg hjson, if_pos hext, Option.some_or]
  · rw [(hmoved.same hmem).1, hold]
    by_cases hid : name.1 ∈ ids
    · obtain ⟨hnone, hnone'⟩ := hmoved.no_file hM h hu hid hmem
      rw [hnone']
      rw [filesOf] at hnone hnone' ⊢
      rw [if_pos hid]
      cases hchat : k user (.chat conversation) name.1 with
      | none =>
        rw [Option.none_or]
        exact hnone.symm
      | some held =>
        rw [Option.some_or]
        rw [hchat] at hnone'
        exact hnone'.symm
    · rw [filesOf, filesOf, if_neg hid]

/-- Nothing of the ids is left pending. -/
theorem Moved.left (hmoved : Moved M user conversation ids taken d d') (hM : M.Sound ops)
    (h : Refines M users chats ops d k) (hu : user ∈ users) (name : Name) : d' (folder M user, pendingDir, name) =
      filesOf (fun id => if id ∈ ids then none else k user .pending id) name := by
  by_cases hmem : name ∈ namesOf taken
  · rw [filesOf, if_pos (hmoved.mem_ids hmem)]
    exact hmoved.gone name hmem
  · have hpend := h.files user hu .pending trivial name
    rw [(hmoved.same hmem).2]
    refine hpend.trans ?_
    by_cases hid : name.1 ∈ ids
    · rw [(hmoved.no_file hM h hu hid hmem).1, filesOf, if_pos hid]
    · rw [filesOf, filesOf, if_neg hid]

/-- What was pending and is taken is the chat's, where the chat had it not. -/
theorem Refines.moved (hM : M.Sound ops) (hapart : Apart M users chats)
    (h : Refines M users chats ops d k) (hu : user ∈ users) (hc : conversation ∈ chats)
    (hmoved : Moved M user conversation ids taken d d') :
    Refines M users chats ops d'
      ((k.set user .pending fun id => if id ∈ ids then none else k user .pending id).set
        user (.chat conversation) fun id =>
          if id ∈ ids then (k user (.chat conversation) id).or (k user .pending id)
          else k user (.chat conversation) id) := by
  refine ⟨fun u hu' p hp name => ?_, fun u p id held hsome => ?_, fun person dir name hsome => ?_⟩
  · by_cases hchat : u = user ∧ p = .chat conversation
    · obtain ⟨rfl, rfl⟩ := hchat
      rw [set_self]
      exact hmoved.chat hM h hu hc name
    · rw [set_ne _ hchat]
      by_cases hpend : u = user ∧ p = .pending
      · obtain ⟨rfl, rfl⟩ := hpend
        rw [set_self]
        exact hmoved.left hM h hu name
      · rw [set_ne _ hpend, ← h.files u hu' p hp name]
        refine hmoved.elsewhere _ fun other _ => ⟨fun heq => ?_, fun heq => ?_⟩
        · obtain ⟨hperson, hplace, -⟩ :=
            @Apart.path M users chats u user p (.chat conversation) hapart hu' hu hp hc _ _ heq
          exact hchat ⟨hperson, hplace⟩
        · obtain ⟨hperson, hplace, -⟩ := @Apart.path M users chats u user p .pending hapart hu' hu
            hp trivial _ _ heq
          exact hpend ⟨hperson, hplace⟩
  · by_cases hchat : u = user ∧ p = .chat conversation
    · obtain ⟨rfl, rfl⟩ := hchat
      rw [set_self] at hsome
      split at hsome
      · cases hold : k u (.chat conversation) id with
        | some old =>
          rw [hold, Option.some_or] at hsome
          exact h.owned u _ id held (hold.trans hsome)
        | none =>
          rw [hold, Option.none_or] at hsome
          exact h.owned u _ id held hsome
      · exact h.owned u _ id held hsome
    · rw [set_ne _ hchat] at hsome
      by_cases hpend : u = user ∧ p = .pending
      · obtain ⟨rfl, rfl⟩ := hpend
        rw [set_self] at hsome
        split at hsome
        · cases hsome
        · exact h.owned u _ id held hsome
      · rw [set_ne _ hpend] at hsome
        exact h.owned u p id held hsome
  · by_cases hthere : ∃ other, (person, dir, name) = (folder M user, folder M conversation, other)
    · obtain ⟨other, heq⟩ := hthere
      obtain ⟨hperson, hrest⟩ := Prod.mk.inj heq
      exact ⟨user, hu, .chat conversation, hc, hperson, (Prod.mk.inj hrest).1⟩
    · by_cases hpend : ∃ other, (person, dir, name) = (folder M user, pendingDir, other)
      · obtain ⟨other, heq⟩ := hpend
        obtain ⟨hperson, hrest⟩ := Prod.mk.inj heq
        exact ⟨user, hu, .pending, trivial, hperson, (Prod.mk.inj hrest).1⟩
      · rw [hmoved.elsewhere _ fun other _ => ⟨fun heq => hthere ⟨other, heq⟩,
          fun heq => hpend ⟨other, heq⟩⟩] at hsome
        exact h.known person dir name hsome

end Taken

section Taking

variable {M} {users chats : Set String} {ops : List Op} {d : Disk} {k : Kept} {user : String}

theorem take_refines (hM : M.Sound ops) (hapart : Apart M users chats)
    (h : Refines M users chats ops d k) {conversation : String} (hu : user ∈ users)
    (hc : conversation ∈ chats) (ids : List String) (made : Bool) (fails : Name → Bool)
    {kept : Name → Bool} (hkept : ∀ name : Name, name.1 ∈ ids →
      (d (folder M user, folder M conversation, name)).isSome = true → kept name = false) :
    Refines M users chats ops (after M d (.take user conversation ids made fails kept))
      (k.after M (went M d (.take user conversation ids made fails kept))
        (.take user conversation ids made fails kept)) := by
  rw [after, Kept.after, went]
  cases hok : (take M d user conversation ids made fails kept).1.isOk with
  | false =>
    rw [if_neg Bool.false_ne_true, take_refused M hok]
    exact h
  | true =>
    rw [if_pos rfl]
    rw [take] at hok ⊢
    split at hok
    · cases hok
    · next hmany =>
      rw [if_neg hmany]
      cases hgather : gather d (folder M user) ids [] with
      | none =>
        rw [hgather] at hok
        cases hok
      | some taken =>
        rw [hgather] at hok
        dsimp only at hok ⊢
        cases made with
        | false => cases hok
        | true =>
          rw [if_pos rfl] at hok ⊢
          cases hmove : moveAll (folder M user) (folder M conversation) fails (namesOf taken) d
              [] [] with
          | error d' =>
            rw [hmove] at hok
            cases hok
          | ok moved =>
            obtain ⟨d', had⟩ := moved
            dsimp only
            obtain ⟨hall, hfrom, -, hids⟩ := gather_spec hgather List.nodup_nil
            replace hfrom := fun a ha => (hfrom a ha).resolve_left List.not_mem_nil
            have hdrops : ∀ name ∈ namesOf taken,
                (d (folder M user, folder M conversation, name)).isSome = true →
                  kept name = false := by
              intro name hmem
              obtain ⟨a, ha, hid, -⟩ := mem_namesOf.mp hmem
              exact hkept name (hid ▸ (hfrom a ha).1)
            obtain ⟨hgone, hthere, helse⟩ := moved_files (hapart.pending _ hc)
              (nodup_namesOf hall) hdrops hmove
            exact h.moved hM hapart hu hc ⟨hfrom, hids, hgone, hthere, helse⟩

end Taking

/-! ### Runs -/

/-- The condition of each operation of a run, in the state it comes to. -/
def Meeting (users chats : Set String) (ops : List Op) : Prop :=
  ∀ before op rest, ops = before ++ op :: rest →
    Meets M users chats (follow M before).1 (follow M before).2 op

section Kept

variable {M} {users chats : Set String} {ops : List Op} {d : Disk} {k : Kept}

theorem follow_concat (ops : List Op) (op : Op) : follow M (ops ++ [op]) =
    (after M (follow M ops).1 op,
      (follow M ops).2.after M (went M (follow M ops).1 op) op) := by
  rw [follow, List.foldl_concat]
  rfl

theorem follow_run (ops : List Op) : (follow M ops).1 = run M ops := by
  induction ops using List.reverseRecOn with
  | nil => rfl
  | append_singleton ops op ih =>
    rw [follow_concat, run, List.foldl_concat, ih]
    rfl

theorem Making.Sound.before {more : List Op} (hM : M.Sound (ops ++ more)) : M.Sound ops where
  injective := by
    refine hM.injective.mono ?_
    rintro x ⟨user, name, bytes, made, data, record, hmem, hx⟩
    exact ⟨user, name, bytes, made, data, record, List.mem_append_left _ hmem, hx⟩
  kind := hM.kind
  picture := hM.picture

theorem Refines.step {op : Op} (hM : M.Sound (ops ++ [op])) (hapart : Apart M users chats)
    (h : Refines M users chats ops d k) (hmeets : Meets M users chats d k op) :
    Refines M users chats (ops ++ [op]) (after M d op) (k.after M (went M d op) op) := by
  have hmore : Refines M users chats (ops ++ [op]) d k := h.more fun u a kept => Added.more
  cases op with
  | add user name bytes made data record =>
    obtain ⟨hu, hclean⟩ := hmeets
    rw [went]
    cases hok : (add M d user name bytes made data record).1.isOk with
    | true =>
      obtain ⟨rfl, rfl, rfl⟩ := add_isOk hok
      exact add_refines hM hapart hmore hu name bytes fun a kept hready =>
        ⟨name, bytes, List.mem_append_right _ List.mem_cons_self, hready⟩
    | false =>
      rw [after, add_refused hclean hok, Kept.after]
      split <;> exact hmore
  | take user conversation ids made fails kept =>
    obtain ⟨hu, hc, hkept⟩ := hmeets
    exact take_refines hM hapart hmore hu hc ids made fails hkept
  | update user conversation a record =>
    obtain ⟨hu, hc, hmeets⟩ := hmeets
    exact update_refines hapart hmore hu hc a hmeets _
  | forget user conversation removed =>
    obtain ⟨hu, hc, hclean⟩ := hmeets
    exact forget_refines hapart hmore hu hc hclean _
  | restart removed => exact restart_refines hapart hmore hmeets _

theorem refines_run (hM : M.Sound ops) (hapart : Apart M users chats)
    (h : Meeting M users chats ops) : Refines M users chats ops (run M ops) (follow M ops).2 := by
  rw [← follow_run]
  induction ops using List.reverseRecOn with
  | nil =>
    refine ⟨fun _ _ _ _ _ => rfl, fun _ _ _ _ h => ?_, fun _ _ _ h => ?_⟩
    · cases h
    · cases h
  | append_singleton ops op ih =>
    have hbefore : Meeting M users chats ops := fun before op' rest heq =>
      h before op' (rest ++ [op]) (by rw [heq, List.append_assoc, List.cons_append])
    rw [follow_concat]
    exact (ih hM.before hbefore).step hM hapart (h ops op [] rfl)

/-- What `bytes` answers is what was kept of a file the person added. -/
theorem Refines.bytesOf (h : Refines M users chats ops d k) {user conversation : String}
    (hu : user ∈ users) (hc : conversation ∈ chats) {a : Attachment} {bytes : Bytes}
    (hbytes : bytesOf M d user conversation a = some bytes) :
    ∃ b, Added M ops user b bytes ∧ b.id = a.id := by
  rw [Attachments.bytesOf] at hbytes
  split at hbytes
  · have hfile := h.files user hu (.chat conversation) hc (fileOf a)
    change d (folder M user, folder M conversation, fileOf a) = _ at hfile
    rw [hfile, filesOf, fileOf] at hbytes
    dsimp only at hbytes
    cases hheld : k user (.chat conversation) a.id with
    | none =>
      rw [hheld] at hbytes
      cases hbytes
    | some held =>
      rw [hheld] at hbytes
      dsimp only at hbytes
      rw [if_neg (extension_ne _)] at hbytes
      by_cases hext : extension a.mime = extension held.attachment.mime
      · rw [if_pos hext] at hbytes
        obtain rfl := Option.some.inj hbytes
        obtain ⟨-, b, hadded, hid, -⟩ := h.owned _ _ _ _ hheld
        exact ⟨b, hadded, hid⟩
      · rw [if_neg hext] at hbytes
        cases hbytes
  · cases hbytes

/-- What `find` answers is kept of the person's, in whatever order their folders are listed. -/
theorem Refines.find (h : Refines M users chats ops d k) (hapart : Apart M users chats)
    {user id : String} (hu : user ∈ users) {dirs : List String} {a : Attachment} {bytes : Bytes}
    (hfind : find M d user id dirs = some (a, bytes)) :
    (∃ p, k user p id = some ⟨a, bytes⟩) ∧ ∃ b, Added M ops user b bytes ∧ b.id = id := by
  obtain ⟨dir, -, hdir⟩ := List.exists_of_findSome?_eq_some hfind
  split at hdir
  · next a' hread =>
    split at hdir
    · next bytes' hdata =>
      obtain ⟨rfl, rfl⟩ := Prod.mk.inj (Option.some.inj hdir)
      obtain ⟨u, hu', p, hp, hperson, rfl⟩ := h.known _ _ _ (Option.isSome_of_eq_some hdata)
      obtain rfl := hapart.people hu hu' hperson
      obtain ⟨kept, hheld, hid⟩ := h.readMeta hu hp hread
      rw [h.files user hu p hp, filesOf, fileOf] at hdata
      dsimp only at hdata
      rw [hid, hheld] at hdata
      dsimp only at hdata
      rw [if_neg (extension_ne _), if_pos rfl] at hdata
      obtain rfl := File.data.inj (Option.some.inj hdata)
      obtain ⟨-, b, hadded, hbid, -⟩ := h.owned _ _ _ _ hheld
      exact ⟨⟨p, hheld⟩, b, hadded, hbid⟩
    · cases hdir
  · cases hdir

/-- **Attachments refine a map for each person**, over every run of these people and chats each of
whose operations meets its condition: their files are those of what is kept, what is found is a
file its person added, and a `take` that fails, whatever fails in it, leaves all as it was. -/
theorem kept_run (hM : M.Sound ops) (hapart : Apart M users chats) (h : Meeting M users chats ops) :
    (∀ u ∈ users, ∀ p : Place, p.Of chats → ∀ name,
      run M ops (folder M u, dirOf M p, name) = filesOf ((follow M ops).2 u p) name) ∧
    (∀ u ∈ users, ∀ id dirs a bytes, find M (run M ops) u id dirs = some (a, bytes) →
      ∃ b, Added M ops u b bytes ∧ b.id = id) ∧
    (∀ u ∈ users, ∀ c ∈ chats, ∀ a bytes, bytesOf M (run M ops) u c a = some bytes →
      ∃ b, Added M ops u b bytes ∧ b.id = a.id) ∧
    (∀ u ∈ users, ∀ c ∈ chats, ∀ a part, textOf M (run M ops) u c a = some part →
      ∃ b bytes, Added M ops u b bytes ∧ b.id = a.id ∧ part <+: bytes) ∧
    ∀ u c ids made fails kept,
      (take M (run M ops) u c ids made fails kept).1.isOk = false →
        (take M (run M ops) u c ids made fails kept).2 = run M ops := by
  have hrefines := refines_run hM hapart h
  refine ⟨hrefines.files, ?_, ?_, ?_, fun _ _ _ _ _ _ => take_refused M⟩
  · intro u hu id dirs a bytes hfind
    exact (hrefines.find hapart hu hfind).2
  · intro u hu c hc a bytes hbytes
    exact hrefines.bytesOf hu hc hbytes
  · intro u hu c hc a part hpart
    rw [textOf] at hpart
    split at hpart
    · obtain ⟨bytes, hbytes, rfl⟩ := Option.map_eq_some_iff.mp hpart
      obtain ⟨b, hadded, hid⟩ := hrefines.bytesOf hu hc hbytes
      refine ⟨b, bytes, hadded, hid, ?_⟩
      split
      · exact List.take_prefix _ _
      · exact List.prefix_refl _
    · cases hpart

/-! ### A chat called as the folder of what is pending -/

/-- Text files only, and an id for the one that is added. -/
def textMaking : Making where
  hash _ := "0123456789abcdef0123456789abcdef"
  utf8 name := name.toList.map fun c => c.toNat.toUInt8
  prepare _ := none
  decode bytes := some (bytes, bytes.length)
  isPicture _ _ := false

@[grind =]
def added : Op := .add "ana" "notes.txt" [104, 105] true .done .done

/-- The file sent twice to a chat, with failures on the way: its folder is not made at first, a
move fails, and a restart clears nothing. -/
def sent : List Op :=
  [.add "ana" "notes.txt" [104, 105] false .done .done, added,
    .take "ana" "c1" ["0123456789abcdef0123456789abcdef"] true (fun _ => true) (fun _ => false),
    .take "ana" "c1" ["0123456789abcdef0123456789abcdef"] true (fun _ => false) (fun _ => false),
    added, .restart (fun _ => .failed fun _ => true),
    .take "ana" "c1" ["0123456789abcdef0123456789abcdef"] true (fun _ => false) (fun _ => false),
    .restart fun _ => .done]

theorem Meeting.concat {op : Op} (h : Meeting M users chats ops)
    (hmeets : Meets M users chats (follow M ops).1 (follow M ops).2 op) : Meeting M users chats (ops ++ [op]) := by
  intro before other rest heq
  cases rest using List.reverseRecOn with
  | nil =>
    obtain ⟨rfl, hlast⟩ := List.append_inj' heq rfl
    obtain rfl := List.singleton_inj.mp hlast
    exact hmeets
  | append_singleton rest last =>
    rw [← List.cons_append, ← List.append_assoc] at heq
    obtain ⟨hops, -⟩ := List.append_inj' heq rfl
    exact h before other rest hops

theorem kept_run_sent :
    run textMaking sent ("ana", "c1", recordOf "0123456789abcdef0123456789abcdef") =
        filesOf ((follow textMaking sent).2 "ana" (.chat "c1"))
          (recordOf "0123456789abcdef0123456789abcdef") ∧
      ((follow textMaking sent).2 "ana" (.chat "c1")
        "0123456789abcdef0123456789abcdef").isSome = true ∧
      ((follow textMaking sent).2 "ana" .pending
        "0123456789abcdef0123456789abcdef").isSome = false := by
  have hnotes : ∀ user name bytes made data record,
      Op.add user name bytes made data record ∈ sent →
        name = "notes.txt" ∧ bytes = [104, 105] := by
    intro user name bytes made data record hmem
    simp only [sent, added, List.mem_cons, List.not_mem_nil, or_false, Op.add.injEq,
      reduceCtorEq, false_or] at hmem
    obtain ⟨-, hname, hbytes, -⟩ | ⟨-, hname, hbytes, -⟩ | ⟨-, hname, hbytes, -⟩ := hmem
    · exact ⟨hname, hbytes⟩
    · exact ⟨hname, hbytes⟩
    · exact ⟨hname, hbytes⟩
  have hsound : textMaking.Sound sent := by
    refine ⟨?_, fun h _ => (by cases h), fun _ _ h => (by cases h)⟩
    rintro x ⟨user, name, bytes, made, data, record, hmem, hx⟩ y
      ⟨user', name', bytes', made', data', record', hmem', hy⟩ -
    obtain ⟨rfl, rfl⟩ := hnotes _ _ _ _ _ _ hmem
    obtain ⟨rfl, rfl⟩ := hnotes _ _ _ _ _ _ hmem'
    exact Option.some.inj (hx.symm.trans hy)
  have hapart : Apart textMaking {"ana"} {"c1"} :=
    ⟨Set.injOn_singleton _ _, Set.injOn_singleton _ _, by
      rintro c rfl
      decide⟩
  have hstart : Meeting textMaking {"ana"} {"c1"} [] := fun before op rest heq => by simp at heq
  have hunmade : ∀ d k, Meets textMaking {"ana"} {"c1"} d k
      (.add "ana" "notes.txt" [104, 105] false .done .done) := fun _ _ =>
    ⟨rfl, fun h => by cases h⟩
  have hadded : ∀ d k, Meets textMaking {"ana"} {"c1"} d k added := fun _ _ =>
    ⟨rfl, fun _ _ _ _ => ⟨trivial, fun _ => ⟨trivial, fun h => by cases h⟩⟩⟩
  have htake : ∀ fails d k, Meets textMaking {"ana"} {"c1"} d k
      (.take "ana" "c1" ["0123456789abcdef0123456789abcdef"] true fails fun _ => false) :=
    fun _ _ _ => ⟨rfl, rfl, fun _ _ _ => rfl⟩
  have hleft : ∀ d k, Meets textMaking {"ana"} {"c1"} d k
      (.restart fun _ => .failed fun _ => true) := fun _ _ _ _ _ => rfl
  have hcleared : ∀ d k, Meets textMaking {"ana"} {"c1"} d k (.restart fun _ => .done) :=
    fun _ _ _ => trivial
  have hsent : Meeting textMaking {"ana"} {"c1"} ([] ++ [_] ++ [_] ++ [_] ++ [_]) :=
    (((hstart.concat (hunmade _ _)).concat (hadded _ _)).concat
      (htake (fun _ => true) _ _)).concat (htake (fun _ => false) _ _)
  have hmeeting : Meeting textMaking {"ana"} {"c1"} sent :=
    (((hsent.concat (hadded _ _)).concat (hleft _ _)).concat
      (htake (fun _ => false) _ _)).concat (hcleared _ _)
  exact ⟨(kept_run hsound hapart hmeeting).1 "ana" rfl (.chat "c1") rfl _, by decide, by decide⟩

/-- Forgetting the chat called so removes what is pending. -/
theorem pending_forgotten :
    ((follow textMaking [added, .forget "ana" "pending" .done]).2 "ana" .pending
        "0123456789abcdef0123456789abcdef").isSome = true ∧
      (find textMaking (run textMaking [added]) "ana" "0123456789abcdef0123456789abcdef"
        ["pending"]).isSome = true ∧
      (find textMaking (run textMaking [added, .forget "ana" "pending" .done]) "ana"
        "0123456789abcdef0123456789abcdef" ["pending"]).isSome = false := by
  refine ⟨?_, ?_, ?_⟩ <;> decide

end Kept

end LocalSpace.Attachments
