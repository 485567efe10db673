import LocalSpace.Conversations
import LocalSpace.Core

/-!
# Migrations that are interrupted

`Store::open`, `migrate_if_needed` and the import of the legacy file, as the writes that one start
makes in their order; a start that is killed makes only the first of them. The writes of the
migration can be repeated from any of them on. The copy of the version 1 file cannot: what there is
of it counts as the database.
-/

namespace LocalSpace

namespace Migration

/-! ### The data directory -/

/-- The database: its tables, its commits in their order, and the schema it was written with. -/
structure Database where
  store : Store
  commits : List Commit
  version : ℕ

/-- The legacy file, as far as it can be read. -/
structure Legacy where
  current : ConversationId
  conversations : List Conversation

/-- What is under the database's name: nothing but the name, a part of a copy, or a database. -/
inductive DbFile where
  | empty
  | torn
  | whole (db : Database)

/-- The data directory: the version 1 file, and whether it is read-only; the database's file, and
whether that is; the legacy file, and the one it was renamed to. -/
structure Disk where
  v1 : Option (Database × Bool)
  file : Option DbFile
  readOnly : Bool
  legacy : Option Legacy
  imported : Option Legacy

/-- A write to the database, all or nothing. -/
inductive DbWrite where
  | load (nowMs : ℕ)
  | putDocument (id : DocId) (record : DocumentRecord)
  | deleteConversation (id : ConversationId)
  | putConversation (c : Conversation)
  | setCurrent (id : ConversationId)
  | setVersion

/-- A write to the directory; a copy is one of several, with what it came to between. -/
inductive Write where
  | created
  | copyBegun
  | copyTorn
  | copied
  | writable
  | inDb (w : DbWrite)
  | renameLegacy

def schemaVersion : ℕ := 3

/-- An installed package of a harness. -/
structure Package where
  id : HarnessId
  title : String
  kind : DocKind

section Starts

variable (packages : List Package) (user : UserId)

def personal : WorkspaceId :=
  "ws_" ++ user

@[grind =]
def DbWrite.apply (db : Database) : DbWrite → Database
  | load nowMs => { db with store := (Chats.load db.store user (personal user) nowMs).2 }
  | putDocument id record => { db with store := db.store.putDocument id record }
  | deleteConversation id =>
    { db with store := db.store.deleteConversation user (personal user) id }
  | putConversation c => { db with store := db.store.putConversation user (personal user) c }
  | setCurrent id => { db with store := db.store.setCurrentConversation user (personal user) id }
  | setVersion => { db with version := schemaVersion }

@[grind =]
def Write.apply (d : Disk) : Write → Disk
  | created => { d with file := some (.whole ⟨.empty, [], 0⟩) }
  | copyBegun => { d with file := some .empty }
  | copyTorn => { d with file := some .torn }
  | copied =>
    match d.v1 with
    | some (db, readOnly) => { d with file := some (.whole db), readOnly }
    | none => d
  | writable => { d with readOnly := false }
  | inDb w =>
    match d.file with
    | some (.whole db) => { d with file := some (.whole (w.apply user db)) }
    | _ => d
  | renameLegacy => { d with legacy := none, imported := d.legacy }

/-! ### The migration -/

/-- The name a harness's document had: dots are underscores. -/
def legacyId (id : HarnessId) : DocId :=
  id.map fun c => if c = '.' then '_' else c

/-- The package whose document had that name, the last of them. -/
def byLegacyId (doc : DocId) : Option Package :=
  packages.reverse.find? fun p => legacyId p.id = doc

def mime : DocKind → String
  | .crdt => "application/json"
  | .blob => "application/octet-stream"

/-- The record of a document that is known by its history alone, by its first commit. -/
def recordOf (c : Commit) : DocumentRecord :=
  let (harness, title, kind) := match byLegacyId packages c.doc with
    | some p => (some p.id, p.title, p.kind)
    | none => (none, c.doc, DocKind.crdt)
  { title
    kind
    mime := mime kind
    bytes := 0
    hash := ""
    source := .harness (harness.getD c.doc)
    createdMs := c.atMs
    workspace := personal user
    harness
    createdBy := user
    acl := none }

/-- A record of an export, with its workspace and its creator. -/
def filled (record : DocumentRecord) : DocumentRecord :=
  { record with workspace := personal user, createdBy := user }

/-- The lock and the exports are recorded elsewhere. -/
def skipped (doc : DocId) : Prop :=
  doc = lockDoc ∨ doc.startsWith "blob:" = true

instance : DecidablePred skipped := fun _ => inferInstanceAs (Decidable (_ ∨ _))

def fills (db : Database) : List DbWrite :=
  db.store.allDocuments.filterMap fun (id, record) =>
    if record.workspace = "" then some (.putDocument id (filled user record)) else none

/-- Every document with history that has no record gets one, once. -/
def records (db : Database) : List DocId → List Commit → List DbWrite
  | _, [] => []
  | seen, c :: rest =>
    if skipped c.doc ∨ c.doc ∈ seen ∨ (db.store.getDocument c.doc).isSome then
      records db seen rest
    else .putDocument c.doc (recordOf packages user c) :: records db (c.doc :: seen) rest

/-- A chat that was opened and never written in. -/
def placeholder (c : Conversation) : Bool :=
  c.messages.isEmpty ∧ c.title = "New chat"

/-- The chats of a list whose ids are not there yet, each once. -/
def newChats : List ConversationId → List Conversation → List Conversation
  | _, [] => []
  | ids, c :: rest =>
    if c.id ∈ ids then newChats ids rest else c :: newChats (c.id :: ids) rest

/-- The chats of the set and those of the file that are new to it. -/
def merged (held : List Conversation) (l : Legacy) : List Conversation :=
  let kept := held.filter fun c => !placeholder c
  kept ++ newChats (kept.map Conversation.id) l.conversations

def inOrder (l : List Conversation) : List Conversation :=
  l.insertionSort fun a b => a.createdMs < b.createdMs ∨ (a.createdMs = b.createdMs ∧ a.id ≤ b.id)

/-- The chat that becomes current: the file's, or the last. -/
def chosen (l : Legacy) (all : List Conversation) : ConversationId :=
  if l.current ∈ all.map Conversation.id then l.current
  else ((inOrder all).getLast?.map Conversation.id).getD ""

/-- The legacy file's chats are brought in. -/
@[grind =]
def importWrites (held : List Conversation) (l : Legacy) : List DbWrite :=
  if l.conversations = [] then []
  else
    ((held.filter fun c => placeholder c).map fun c => DbWrite.deleteConversation c.id) ++
      (((newChats ((held.filter fun c => !placeholder c).map Conversation.id)
        l.conversations).filter Chats.holds).map .putConversation ++
      [.setCurrent (chosen l (merged held l))])

/-- What is written to the database before the legacy file is renamed. -/
def bodyWrites (legacy : Option Legacy) (nowMs : ℕ) (db : Database) : List DbWrite :=
  .load nowMs ::
    if schemaVersion ≤ db.version then []
    else
      (if db.version < 2 then fills user db ++ records packages user db [] db.commits else []) ++
        legacy.elim [] (importWrites (Chats.load db.store user (personal user) nowMs).1.conversations)

/-- What is written last: the legacy file's other name, and the version. -/
def tailWrites (legacy : Option Legacy) : List Write :=
  legacy.elim [] (fun _ => [.renameLegacy]) ++ [.inDb .setVersion]

/-- The writes of a start on an open database. -/
def openedWrites (legacy : Option Legacy) (nowMs : ℕ) (db : Database) : List Write :=
  (bodyWrites packages user legacy nowMs db).map .inDb ++
    if schemaVersion ≤ db.version then [] else tailWrites legacy

/-- The writes of a start: with nothing but a name the database is a new one, with a part of a copy
or a read-only file it cannot be opened. -/
def startWrites (nowMs : ℕ) (d : Disk) : List Write :=
  match d.file, d.v1 with
  | none, none | some .empty, _ =>
    .created :: openedWrites packages user d.legacy nowMs ⟨.empty, [], 0⟩
  | none, some (db, _) =>
    [.copyBegun, .copyTorn, .copied, .writable] ++ openedWrites packages user d.legacy nowMs db
  | some .torn, _ => []
  | some (.whole db), _ => if d.readOnly then [] else openedWrites packages user d.legacy nowMs db

/-- A start that makes the first `n` of its writes. -/
def killed (d : Disk) (kill : ℕ × ℕ) : Disk :=
  ((startWrites packages user kill.1 d).take kill.2).foldl (Write.apply user) d

/-- A start that is not killed. -/
def started (nowMs : ℕ) (d : Disk) : Disk :=
  (startWrites packages user nowMs d).foldl (Write.apply user) d

/-- Starts that are killed, one after another. -/
def killedEach (d : Disk) (kills : List (ℕ × ℕ)) : Disk :=
  kills.foldl (killed packages user) d

end Starts

/-! ### What a migration comes to -/

/-- The last of some chats. -/
def lastOf (l : List Conversation) : ConversationId :=
  ((inOrder l).getLast?.map Conversation.id).getD ""

/-- The chat that is opened where there is none. -/
@[grind =]
def opened (nowMs : ℕ) : Conversation :=
  ⟨s!"c_{nowMs}_{1}", "New chat", nowMs, nowMs, []⟩

/-- The chat that is current after a load. -/
@[grind =]
def currentOf (l : List Conversation) (current : ConversationId) (nowMs : ℕ) : ConversationId :=
  if l = [] then (opened nowMs).id
  else if current ∈ l.map Conversation.id then current
  else lastOf l

section Ends

variable (packages : List Package) (user : UserId)

/-- The record a document has in the end. -/
@[grind =]
def docEnd (db : Database) (id : DocId) : Option DocumentRecord :=
  if 2 ≤ db.version then db.store.getDocument id
  else
    match db.store.getDocument id with
    | some record => some (if record.workspace = "" then filled user record else record)
    | none =>
      if skipped id then none
      else (db.commits.find? fun c => c.doc = id).map (recordOf packages user)

@[grind =]
def row (db : Database) (id : ConversationId) : Option Conversation :=
  db.store.conversations.lookup (user, personal user, id)

/-- The chat that an id stands for after the import, in memory: the set's own, or the file's. -/
@[grind =]
def chatOf (l : Legacy) (own : Option Conversation) (id : ConversationId) : Option Conversation :=
  match own.filter fun c => !placeholder c with
  | some c => some c
  | none => l.conversations.find? fun c => c.id = id

/-- The row a chat has in the end: one with no message is not written. -/
def rowEnd (legacy : Option Legacy) (db : Database) (id : ConversationId) : Option Conversation :=
  match legacy with
  | some l =>
    if l.conversations = [] then row user db id
    else
      match (row user db id).filter fun c => !placeholder c with
      | some c => some c
      | none => (l.conversations.find? fun c => c.id = id).filter Chats.holds
  | none => row user db id

/-- What no migration writes. -/
structure Alike (db db' : Database) : Prop where
  commits : db'.commits = db.commits
  elsewhere : ∀ key, (∀ id, key ≠ (user, personal user, id)) →
    db'.store.conversations.lookup key = db.store.conversations.lookup key
  currents : ∀ key, key ≠ (user, personal user) →
    db'.store.currentConversations.lookup key = db.store.currentConversations.lookup key
  workspaces : db'.store.workspaces = db.store.workspaces
  ledgers : db'.store.ledgers = db.store.ledgers
  currentWorkspaces : db'.store.currentWorkspaces = db.store.currentWorkspaces
  users : db'.store.users = db.store.users

/-- What a chat's row may be meanwhile: as it was, as it will be, or none where it was a chat that was
never written in. -/
def Allows (legacy : Option Legacy) (db : Database) (id : ConversationId)
    (own : Option Conversation) : Prop :=
  own = row user db id ∨ own = rowEnd user legacy db id ∨
    ∃ l c, legacy = some l ∧ l.conversations ≠ [] ∧ row user db id = some c ∧
      placeholder c = true ∧ own = none

/-- Whether there are chats to bring in. -/
def imports (legacy : Option Legacy) : Prop :=
  ∃ l, legacy = some l ∧ l.conversations ≠ []

def currentId (db : Database) : ConversationId :=
  (db.store.currentConversations.lookup (user, personal user)).getD ""

@[grind =]
def chatsIn (db : Database) : List Conversation :=
  db.store.conversationsOf user (personal user)

/-- What Core holds of the chats once they are loaded. -/
def heldOf (db : Database) (nowMs : ℕ) : List Conversation :=
  (Chats.load db.store user (personal user) nowMs).1.conversations

/-- The chat that is current in the end. -/
def currentEnd (legacy : Option Legacy) (db : Database) (nowMs : ℕ) : ConversationId :=
  match legacy with
  | some l =>
    if l.conversations = [] then currentOf (chatsIn user db) (currentId user db) nowMs
    else chosen l (merged (heldOf user db nowMs) l)
  | none => currentOf (chatsIn user db) (currentId user db) nowMs

/-- A database part of the way: each document and each chat is as it was or as it will be. -/
structure Midway (legacy : Option Legacy) (db db' : Database) : Prop where
  alike : Alike user db db'
  documents : ∀ id, db'.store.getDocument id = db.store.getDocument id ∨
    db'.store.getDocument id = docEnd packages user db id
  rows : ∀ id, Allows user legacy db id (row user db' id)
  others : ¬imports legacy → db'.store.conversations = db.store.conversations ∧
    ∀ nowMs, currentOf (chatsIn user db') (currentId user db') nowMs = currentEnd user legacy db nowMs

/-- Chats are kept under their own ids. -/
def Keyed (db : Database) : Prop :=
  ∀ id c, row user db id = some c → c.id = id

end Ends

/-! ### Writes to the database -/

section Writes

variable {packages : List Package} {user : UserId} {legacy : Option Legacy}
variable {db db' : Database} {w : DbWrite} {ws : List DbWrite} {id : DocId} {c : Conversation}

theorem Alike.refl (db : Database) : Alike user db db :=
  ⟨rfl, fun _ _ => rfl, fun _ _ => rfl, rfl, rfl, rfl, rfl⟩

theorem inOrder_perm (l : List Conversation) : (inOrder l).Perm l :=
  List.perm_insertionSort _ l

theorem currentChat_isNone (s : Chats) :
    s.currentChat.isNone = true ↔ s.current ∉ s.conversations.map Conversation.id := by
  rw [Chats.currentChat, Chats.find, Option.isNone_iff_eq_none, List.find?_eq_none, List.mem_map]
  constructor
  · rintro h ⟨c, hc, hid⟩
    exact h c hc (decide_eq_true hid)
  · intro h c hc hid
    exact h ⟨c, hc, of_decide_eq_true hid⟩

/-- What a load comes to. -/
theorem load_eq (db : Store) (user : UserId) (workspace : WorkspaceId) (nowMs : ℕ) :
    let l := db.conversationsOf user workspace
    let current := (db.currentConversations.lookup (user, workspace)).getD ""
    (Chats.load db user workspace nowMs).1.conversations =
      (if l = [] then [opened nowMs] else inOrder l) ∧
    (Chats.load db user workspace nowMs).2 =
      if l ≠ [] ∧ current ∈ l.map Conversation.id then db
      else db.setCurrentConversation user workspace (currentOf l current nowMs) := by
  intro l current
  have hperm := inOrder_perm l
  have hids : ∀ id, id ∈ (inOrder l).map Conversation.id ↔ id ∈ l.map Conversation.id :=
    fun id => (hperm.map Conversation.id).mem_iff
  have hload : Chats.load db user workspace nowMs =
      let s : Chats := ⟨current, inOrder l, user, workspace⟩
      let started := if s.conversations.isEmpty then s.start db nowMs else (s, db)
      if started.1.currentChat.isNone then
        started.1.setCurrent started.2
          ((started.1.conversations.getLast?.map Conversation.id).getD "")
      else started := rfl
  rw [hload]
  by_cases hl : l = []
  · have hsorted : inOrder l = [] := by rw [hl]; rfl
    have hnone : (⟨current, [], user, workspace⟩ : Chats).currentChat.any
        (fun c => c.messages.isEmpty) ≠ true := Bool.false_ne_true
    have hone : s!"c_{nowMs}_{([] : List Conversation).length + 1}" = s!"c_{nowMs}_{1}" := rfl
    have hnew : ¬(l ≠ [] ∧ current ∈ l.map Conversation.id) := fun h => h.1 hl
    rw [hsorted, if_pos hl, if_neg hnew, currentOf, if_pos hl]
    simp only [List.isEmpty_nil, if_true, Chats.start, if_neg hnone, hone]
    simp [Chats.currentChat, Chats.find, Chats.setCurrent, opened]
  · have hne : inOrder l ≠ [] := by
      intro h
      rw [h] at hperm
      exact hl hperm.nil_eq.symm
    have hempty : (inOrder l).isEmpty = false := List.isEmpty_eq_false_iff.mpr hne
    rw [if_neg hl, currentOf, if_neg hl]
    simp only [hempty, Bool.false_eq_true, if_false]
    have hnone := currentChat_isNone ⟨current, inOrder l, user, workspace⟩
    rw [hids] at hnone
    by_cases hcurrent : current ∈ l.map Conversation.id
    · have hfound : ¬(⟨current, inOrder l, user, workspace⟩ : Chats).currentChat.isNone = true :=
        fun h => hnone.mp h hcurrent
      have hboth : l ≠ [] ∧ current ∈ l.map Conversation.id := ⟨hl, hcurrent⟩
      rw [if_neg hfound, if_pos hboth]
      exact ⟨rfl, rfl⟩
    · have hnot : ¬(l ≠ [] ∧ current ∈ l.map Conversation.id) := fun h => hcurrent h.2
      rw [if_pos (hnone.mpr hcurrent), if_neg hnot, if_neg hcurrent]
      exact ⟨rfl, rfl⟩

/-- A load writes at most which chat is current. -/
theorem load_store (db : Store) (user : UserId) (workspace : WorkspaceId) (nowMs : ℕ) :
    (Chats.load db user workspace nowMs).2 = db ∨
      ∃ id, (Chats.load db user workspace nowMs).2 =
        db.setCurrentConversation user workspace id := by
  rw [(load_eq db user workspace nowMs).2]
  split
  · exact .inl rfl
  · exact .inr ⟨_, rfl⟩

/-- The rows after a write. -/
theorem row_apply (w : DbWrite) (id : ConversationId) : row user (w.apply user db) id =
    match w with
    | .deleteConversation i => if id = i then none else row user db id
    | .putConversation c => if id = c.id then some c else row user db id
    | _ => row user db id := by
  cases w with
  | load nowMs =>
    rw [row, DbWrite.apply]
    dsimp only
    obtain h | ⟨current, h⟩ := load_store db.store user (personal user) nowMs
    · rw [h]
      rfl
    · rw [h]
      rfl
  | putDocument i record => rfl
  | deleteConversation i => exact Chats.Sitting.lookup_delete db.store user (personal user) i id
  | putConversation c => exact Chats.Sitting.lookup_put db.store user (personal user) c id
  | setCurrent i => rfl
  | setVersion => rfl

/-- The documents after a write. -/
theorem getDocument_apply (w : DbWrite) (id : DocId) :
    (w.apply user db).store.getDocument id =
      match w with
      | .putDocument i record => if id = i then some record else db.store.getDocument id
      | _ => db.store.getDocument id := by
  cases w with
  | load nowMs =>
    rw [DbWrite.apply]
    dsimp only
    obtain h | ⟨current, h⟩ := load_store db.store user (personal user) nowMs
    · rw [h]
    · rw [h]
      rfl
  | putDocument i record =>
    rw [DbWrite.apply, Store.getDocument, Store.putDocument]
    dsimp only
    split
    · next heq =>
      rw [heq]
      exact AList.lookup_insert _
    · next hne => exact AList.lookup_insert_ne hne
  | deleteConversation i => rfl
  | putConversation c => rfl
  | setCurrent i => rfl
  | setVersion => rfl

theorem alike_apply (h : Alike user db db') (w : DbWrite) : Alike user db (w.apply user db') := by
  have hset : ∀ id, Alike user db ⟨db'.store.setCurrentConversation user (personal user) id,
      db'.commits, db'.version⟩ := fun id =>
    ⟨h.commits, h.elsewhere, fun key hkey =>
      (AList.lookup_insert_ne hkey).trans (h.currents key hkey), h.workspaces, h.ledgers,
      h.currentWorkspaces, h.users⟩
  cases w with
  | load nowMs =>
    rw [DbWrite.apply]
    obtain hload | ⟨current, hload⟩ := load_store db'.store user (personal user) nowMs
    · rw [hload]
      exact h
    · rw [hload]
      exact hset _
  | putDocument i record =>
    exact ⟨h.commits, h.elsewhere, h.currents, h.workspaces, h.ledgers, h.currentWorkspaces,
      h.users⟩
  | deleteConversation i =>
    exact ⟨h.commits, fun key hkey => (AList.lookup_erase_ne (hkey i)).trans (h.elsewhere key hkey),
      h.currents, h.workspaces, h.ledgers, h.currentWorkspaces, h.users⟩
  | putConversation c =>
    exact ⟨h.commits, fun key hkey =>
      (AList.lookup_insert_ne (hkey c.id)).trans (h.elsewhere key hkey),
      h.currents, h.workspaces, h.ledgers, h.currentWorkspaces, h.users⟩
  | setCurrent i => exact hset i
  | setVersion => exact ⟨h.commits, h.elsewhere, h.currents, h.workspaces, h.ledgers,
      h.currentWorkspaces, h.users⟩

/-- A write that takes a database on its way. -/
def Right (packages : List Package) (user : UserId) (legacy : Option Legacy) (db : Database) :
    DbWrite → Prop
  | .load _ => True
  | .putDocument id record => docEnd packages user db id = some record
  | .deleteConversation id => imports legacy ∧ Allows user legacy db id none
  | .putConversation c => imports legacy ∧ rowEnd user legacy db c.id = some c
  | .setCurrent _ => imports legacy
  | .setVersion => False

theorem lastOf_mem {l : List Conversation} (h : l ≠ []) : lastOf l ∈ l.map Conversation.id := by
  have hne : inOrder l ≠ [] := by
    intro hnil
    have hperm := inOrder_perm l
    rw [hnil] at hperm
    exact h hperm.nil_eq.symm
  rw [lastOf, List.getLast?_eq_getLast_of_ne_nil hne]
  exact List.mem_map_of_mem ((inOrder_perm l).mem_iff.mp (List.getLast_mem hne))

/-- A load later finds what a load before it has left. -/
theorem currentOf_currentOf (l : List Conversation) (current : ConversationId) (nowMs later : ℕ) :
    currentOf l (currentOf l current nowMs) later = currentOf l current later := by
  by_cases hl : l = []
  · rw [currentOf, if_pos hl, currentOf, if_pos hl]
  · by_cases hcurrent : current ∈ l.map Conversation.id
    · have hsame : ∀ now, currentOf l current now = current := fun now => by
        rw [currentOf, if_neg hl, if_pos hcurrent]
      rw [hsame, hsame]
    · have hlast : ∀ now, currentOf l current now = lastOf l := fun now => by
        rw [currentOf, if_neg hl, if_neg hcurrent]
      rw [hlast, hlast, currentOf, if_neg hl, if_pos (lastOf_mem hl)]

variable (user) in
/-- The current chat after a load. -/
theorem currentId_load (db : Database) (nowMs : ℕ) :
    currentId user (DbWrite.apply user db (.load nowMs)) =
      currentOf (chatsIn user db) (currentId user db) nowMs := by
  rw [currentId, DbWrite.apply]
  dsimp only
  rw [(load_eq db.store user (personal user) nowMs).2]
  split
  · next h =>
    have hin : currentId user db ∈ (chatsIn user db).map Conversation.id := h.2
    have hne : chatsIn user db ≠ [] := h.1
    rw [currentOf, if_neg hne, if_pos hin]
    rfl
  · rw [Store.setCurrentConversation]
    dsimp only
    rw [AList.lookup_insert]
    rfl

theorem currentId_setCurrent (db : Database) (i : ConversationId) :
    currentId user (DbWrite.apply user db (.setCurrent i)) = i := by
  change ((db.store.currentConversations.insert (user, personal user) i).lookup
    (user, personal user)).getD "" = i
  rw [AList.lookup_insert]
  rfl

variable (user) in
theorem conversations_load (db : Database) (nowMs : ℕ) :
    (DbWrite.apply user db (.load nowMs)).store.conversations = db.store.conversations := by
  rw [DbWrite.apply]
  dsimp only
  obtain h | ⟨current, h⟩ := load_store db.store user (personal user) nowMs
  · rw [h]
  · rw [h]
    rfl

/-- **A right write** takes a database on its way. -/
theorem Midway.apply (h : Midway packages user legacy db db') (hw : Right packages user legacy db w) :
    Midway packages user legacy db (w.apply user db') := by
  refine ⟨alike_apply h.alike w, fun id => ?_, fun id => ?_, fun hnone => ?_⟩
  · rw [getDocument_apply]
    cases w with
    | putDocument i record =>
      dsimp only
      split
      · next hid =>
        rw [hid]
        exact .inr hw.symm
      · exact h.documents id
    | _ => exact h.documents id
  · rw [row_apply]
    cases w with
    | deleteConversation i =>
      dsimp only
      split
      · next hid =>
        rw [hid]
        exact hw.2
      · exact h.rows id
    | putConversation c =>
      dsimp only
      split
      · next hid =>
        rw [hid]
        exact .inr (.inl hw.2.symm)
      · exact h.rows id
    | _ => exact h.rows id
  · obtain ⟨hsame, hcurrent⟩ := h.others hnone
    cases w with
    | load nowMs =>
      have hconversations := conversations_load user db' nowMs
      have hchats : chatsIn user (DbWrite.apply user db' (.load nowMs)) = chatsIn user db' := by
        rw [chatsIn, Store.conversationsOf, hconversations]
        rfl
      refine ⟨hconversations.trans hsame, fun later => ?_⟩
      rw [hchats, currentId_load, currentOf_currentOf, hcurrent]
    | putDocument i record => exact ⟨hsame, hcurrent⟩
    | deleteConversation i => exact absurd hw.1 hnone
    | putConversation c => exact absurd hw.1 hnone
    | setCurrent i => exact absurd hw hnone
    | setVersion => exact hw.elim

theorem Midway.applyAll (h : Midway packages user legacy db db')
    (hws : ∀ w ∈ ws, Right packages user legacy db w) :
    Midway packages user legacy db (ws.foldl (DbWrite.apply user) db') := by
  induction ws generalizing db' with
  | nil => exact h
  | cons w ws ih =>
    exact ih (h.apply (hws w List.mem_cons_self)) fun w' hw' => hws w' (List.mem_cons_of_mem _ hw')

variable (packages) in
theorem Midway.refl (legacy : Option Legacy) (db : Database) :
    Midway packages user legacy db db := by
  refine ⟨.refl db, fun _ => .inl rfl, fun _ => .inl rfl, fun hnone => ⟨rfl, fun nowMs => ?_⟩⟩
  rw [currentEnd.eq_def]
  split
  · next l =>
    split
    · rfl
    · next hne => exact absurd ⟨l, rfl, hne⟩ hnone
  · rfl

/-! ### Documents -/

theorem mem_allDocuments {record : DocumentRecord} :
    (id, record) ∈ db.store.allDocuments ↔ db.store.getDocument id = some record := by
  rw [Store.allDocuments, List.mem_map]
  constructor
  · rintro ⟨⟨i, r⟩, he, heq⟩
    cases heq
    exact AList.mem_lookup_iff.mpr he
  · intro h
    exact ⟨⟨id, record⟩, AList.mem_lookup_iff.mp h, rfl⟩

theorem mem_fills : w ∈ fills user db ↔ ∃ id record, db.store.getDocument id = some record ∧
    record.workspace = "" ∧ w = .putDocument id (filled user record) := by
  rw [fills, List.mem_filterMap]
  constructor
  · rintro ⟨⟨id, record⟩, hmem, hw⟩
    dsimp only at hw
    split at hw
    · next hempty =>
      cases hw
      exact ⟨id, record, mem_allDocuments.mp hmem, hempty, rfl⟩
    · cases hw
  · rintro ⟨id, record, hget, hempty, rfl⟩
    exact ⟨(id, record), mem_allDocuments.mpr hget, if_pos hempty⟩

/-- The documents that get a record: each once, by its first commit. -/
theorem mem_records {seen : List DocId} {commits : List Commit} :
    w ∈ records packages user db seen commits ↔ ∃ id c, ¬skipped id ∧ id ∉ seen ∧
      db.store.getDocument id = none ∧ commits.find? (fun c => c.doc = id) = some c ∧
        w = .putDocument id (recordOf packages user c) := by
  induction commits generalizing seen with
  | nil =>
    constructor
    · intro h
      cases h
    · rintro ⟨id, c, -, -, -, hfind, -⟩
      cases hfind
  | cons c rest ih =>
    rw [records]
    split
    · next hskip =>
      rw [ih]
      refine exists_congr fun id => exists_congr fun c' => ?_
      refine and_congr_right fun hid => and_congr_right fun hseen => and_congr_right fun hget => ?_
      have hne : c.doc ≠ id := by
        rintro rfl
        obtain h | h | h := hskip
        · exact hid h
        · exact hseen h
        · rw [hget] at h
          cases h
      rw [List.find?_cons_of_neg (by simpa using hne)]
    · next hkeep =>
      rw [not_or, not_or, Option.not_isSome_iff_eq_none] at hkeep
      rw [List.mem_cons, ih]
      constructor
      · rintro (rfl | ⟨id, c', hid, hseen, hget, hfind, rfl⟩)
        · exact ⟨c.doc, c, hkeep.1, hkeep.2.1, hkeep.2.2,
            List.find?_cons_of_pos (decide_eq_true rfl), rfl⟩
        · rw [List.mem_cons, not_or] at hseen
          refine ⟨id, c', hid, hseen.2, hget, ?_, rfl⟩
          rw [List.find?_cons_of_neg (by simpa using Ne.symm hseen.1)]
          exact hfind
      · rintro ⟨id, c', hid, hseen, hget, hfind, rfl⟩
        by_cases hdoc : c.doc = id
        · rw [List.find?_cons_of_pos (by simpa using hdoc)] at hfind
          cases hfind
          exact .inl (by rw [hdoc])
        · rw [List.find?_cons_of_neg (by simpa using hdoc)] at hfind
          refine .inr ⟨id, c', hid, ?_, hget, hfind, rfl⟩
          rw [List.mem_cons, not_or]
          exact ⟨Ne.symm hdoc, hseen⟩

def documentWrites (packages : List Package) (user : UserId) (db : Database) : List DbWrite :=
  if db.version < 2 then fills user db ++ records packages user db [] db.commits else []

theorem personal_ne (user : UserId) : personal user ≠ "" := by
  intro h
  have hlength := congrArg String.length h
  rw [personal, String.length_append] at hlength
  exact absurd hlength (by simp)

/-- In the end every record has a workspace. -/
theorem workspace_docEnd {record : DocumentRecord} (hversion : db.version < 2)
    (h : docEnd packages user db id = some record) : record.workspace ≠ "" := by
  rw [docEnd, if_neg (Nat.not_le_of_lt hversion)] at h
  split at h
  · cases h
    split
    · exact personal_ne user
    · next hne => exact hne
  · split at h
    · cases h
    · obtain ⟨c, -, rfl⟩ := Option.map_eq_some_iff.mp h
      exact personal_ne user

/-- What a start writes of documents is right. -/
theorem Midway.documentWrites_right (h : Midway packages user legacy db db')
    (hversion : db'.version = db.version) :
    ∀ w ∈ documentWrites packages user db', ∃ id record, w = .putDocument id record ∧
      docEnd packages user db id = some record := by
  intro w hw
  rw [documentWrites, hversion] at hw
  split at hw
  · next hlow =>
    have hend : ∀ id, docEnd packages user db id = match db.store.getDocument id with
        | some record => some (if record.workspace = "" then filled user record else record)
        | none =>
          if skipped id then none
          else (db.commits.find? fun c => c.doc = id).map (recordOf packages user) :=
      fun id => if_neg (Nat.not_le_of_lt hlow)
    obtain hfill | hrecord := List.mem_append.mp hw
    · obtain ⟨id, record, hget, hempty, rfl⟩ := mem_fills.mp hfill
      refine ⟨id, filled user record, rfl, ?_⟩
      obtain hsame | hdone := h.documents id
      · rw [hend, ← hsame, hget]
        exact congrArg some (if_pos hempty)
      · exact absurd hempty (workspace_docEnd hlow (hdone.symm.trans hget))
    · obtain ⟨id, c, hid, -, hget, hfind, rfl⟩ := mem_records.mp hrecord
      refine ⟨id, _, rfl, ?_⟩
      rw [h.alike.commits] at hfind
      obtain hsame | hdone := h.documents id
      · rw [hend, ← hsame, hget]
        dsimp only
        rw [if_neg hid, hfind]
        rfl
      · rw [hget, hend] at hdone
        split at hdone
        · cases hdone
        · rw [if_neg hid, hfind] at hdone
          cases hdone
  · cases hw

/-- What is not as it will be is written. -/
theorem Midway.documentWrites_all (h : Midway packages user legacy db db')
    (hversion : db'.version = db.version) (id : DocId) :
    db'.store.getDocument id = docEnd packages user db id ∨
      ∃ record, .putDocument id record ∈ documentWrites packages user db' := by
  obtain hsame | hdone := h.documents id
  · rw [documentWrites, hversion]
    by_cases hlow : db.version < 2
    · rw [if_pos hlow, docEnd, if_neg (Nat.not_le_of_lt hlow)]
      cases hget : db.store.getDocument id with
      | some record =>
        rw [hget] at hsame
        by_cases hempty : record.workspace = ""
        · refine .inr ⟨_, List.mem_append_left _ (mem_fills.mpr ⟨id, record, hsame, hempty, rfl⟩)⟩
        · refine .inl (hsame.trans (congrArg some ?_))
          exact (if_neg hempty).symm
      | none =>
        rw [hget] at hsame
        dsimp only
        by_cases hid : skipped id
        · rw [if_pos hid]
          exact .inl hsame
        · rw [if_neg hid]
          cases hfind : db.commits.find? fun c => c.doc = id with
          | none => exact .inl hsame
          | some c =>
            refine .inr ⟨_, List.mem_append_right _ (mem_records.mpr
              ⟨id, c, hid, List.not_mem_nil, hsame, ?_, rfl⟩)⟩
            rw [h.alike.commits]
            exact hfind
    · rw [docEnd, if_pos (Nat.le_of_not_lt hlow)]
      exact .inl hsame
  · exact .inl hdone

/-- Right writes of documents that cover a document leave it as it will be. -/
theorem getDocument_applyAll
    (hright : ∀ w ∈ ws, ∀ id record, w = .putDocument id record →
      docEnd packages user db id = some record)
    (hid : db'.store.getDocument id = docEnd packages user db id ∨
      ∃ record, .putDocument id record ∈ ws) :
    (ws.foldl (DbWrite.apply user) db').store.getDocument id = docEnd packages user db id := by
  induction ws generalizing db' with
  | nil =>
    obtain hdone | ⟨record, hmem⟩ := hid
    · exact hdone
    · cases hmem
  | cons w ws ih =>
    refine ih (fun w' hw' => hright w' (List.mem_cons_of_mem _ hw')) ?_
    rw [getDocument_apply]
    obtain hdone | ⟨record, hmem⟩ := hid
    · refine .inl ?_
      split
      · next i r =>
        split
        · next heq =>
          rw [heq]
          exact (hright _ List.mem_cons_self i r rfl).symm
        · exact hdone
      · exact hdone
    · obtain heq | hmem := List.mem_cons.mp hmem
      · refine .inl ?_
        rw [← heq]
        dsimp only
        rw [if_pos rfl]
        exact (hright _ List.mem_cons_self id record heq.symm).symm
      · exact .inr ⟨record, hmem⟩

/-! ### Chats -/

/-- The chats of a list that are new to some ids: the first of each id. -/
theorem mem_newChats {ids : List ConversationId} {l : List Conversation} :
    c ∈ newChats ids l ↔ c.id ∉ ids ∧ l.find? (fun d => d.id = c.id) = some c := by
  induction l generalizing ids with
  | nil =>
    constructor
    · intro h
      cases h
    · rintro ⟨-, h⟩
      cases h
  | cons d rest ih =>
    rw [newChats]
    split
    · next hd =>
      rw [ih]
      refine and_congr_right fun hc => ?_
      have hne : d.id ≠ c.id := fun heq => hc (heq ▸ hd)
      rw [List.find?_cons_of_neg (by simpa using hne)]
    · next hd =>
      rw [List.mem_cons, ih, List.mem_cons, not_or]
      by_cases hid : d.id = c.id
      · rw [List.find?_cons_of_pos (by simpa using hid)]
        constructor
        · rintro (rfl | ⟨⟨hne, -⟩, -⟩)
          · exact ⟨hd, rfl⟩
          · exact absurd hid.symm hne
        · rintro ⟨-, heq⟩
          exact .inl (Option.some_inj.mp heq).symm
      · rw [List.find?_cons_of_neg (by simpa using hid)]
        constructor
        · rintro (rfl | ⟨⟨-, hc⟩, hfind⟩)
          · exact absurd rfl hid
          · exact ⟨hc, hfind⟩
        · rintro ⟨hc, hfind⟩
          exact .inr ⟨⟨Ne.symm hid, hc⟩, hfind⟩

theorem nodup_newChats {ids : List ConversationId} {l : List Conversation} :
    ((newChats ids l).map Conversation.id).Nodup := by
  induction l generalizing ids with
  | nil => exact List.nodup_nil
  | cons d rest ih =>
    rw [newChats]
    split
    · exact ih
    · refine List.nodup_cons.mpr ⟨fun hmem => ?_, ih⟩
      obtain ⟨c, hc, hid⟩ := List.mem_map.mp hmem
      exact (mem_newChats.mp hc).1 (hid ▸ List.mem_cons_self)

theorem mem_chatsIn (hkeyed : Keyed user db) : c ∈ chatsIn user db ↔ row user db c.id = some c := by
  rw [chatsIn, Chats.Sitting.mem_conversationsOf]
  constructor
  · rintro ⟨id, hid⟩
    rw [hkeyed id c hid]
    exact hid
  · exact fun h => ⟨c.id, h⟩

theorem nodup_chatsIn (hkeyed : Keyed user db) : ((chatsIn user db).map Conversation.id).Nodup := by
  rw [chatsIn, Store.conversationsOf, List.map_map]
  refine List.Nodup.map_on ?_ (db.store.conversations.nodupKeys.nodup.filter _)
  have hkey : ∀ e ∈ db.store.conversations.entries.filter
      (fun e => e.1.1 = user ∧ e.1.2.1 = personal user),
      db.store.conversations.lookup e.1 = some e.2 ∧ e.1 = (user, personal user, e.2.id) := by
    rintro ⟨⟨u, w, id⟩, c⟩ he
    obtain ⟨hentry, hscope⟩ := List.mem_filter.mp he
    obtain ⟨hu, hw⟩ := of_decide_eq_true hscope
    change u = user at hu
    change w = personal user at hw
    have hlookup := AList.mem_lookup_iff.mpr hentry
    refine ⟨hlookup, ?_⟩
    rw [hu, hw] at hlookup ⊢
    rw [hkeyed id c hlookup]
  rintro ⟨key, c⟩ he ⟨key', c'⟩ he' hid
  obtain ⟨hc, hk⟩ := hkey _ he
  obtain ⟨hc', hk'⟩ := hkey _ he'
  have hkeys : key = key' := by
    change c.id = c'.id at hid
    change key = (user, personal user, c.id) at hk
    change key' = (user, personal user, c'.id) at hk'
    rw [hk, hk', hid]
  subst hkeys
  change db.store.conversations.lookup key = some c at hc
  change db.store.conversations.lookup key = some c' at hc'
  rw [hc] at hc'
  cases hc'
  rfl

theorem heldOf_eq (db : Database) (nowMs : ℕ) : heldOf user db nowMs =
    if chatsIn user db = [] then [opened nowMs] else inOrder (chatsIn user db) :=
  (load_eq db.store user (personal user) nowMs).1

theorem placeholder_opened (nowMs : ℕ) : placeholder (opened nowMs) = true :=
  decide_eq_true ⟨rfl, rfl⟩

/-- The chats that stay are those of the database that are no placeholders. -/
theorem mem_kept (hkeyed : Keyed user db) {nowMs : ℕ} :
    c ∈ (heldOf user db nowMs).filter (fun c => !placeholder c) ↔
      row user db c.id = some c ∧ placeholder c = false := by
  rw [List.mem_filter, Bool.not_eq_true', heldOf_eq]
  refine and_congr_left fun hc => ?_
  split
  · next hnone =>
    rw [← mem_chatsIn hkeyed, hnone, List.mem_singleton]
    refine iff_of_false (fun heq => ?_) List.not_mem_nil
    rw [heq, placeholder_opened] at hc
    cases hc
  · rw [(inOrder_perm _).mem_iff, mem_chatsIn hkeyed]

theorem nodup_kept (hkeyed : Keyed user db) {nowMs : ℕ} :
    (((heldOf user db nowMs).filter fun c => !placeholder c).map Conversation.id).Nodup := by
  refine List.Nodup.sublist (List.filter_sublist.map _) ?_
  rw [heldOf_eq]
  split
  · exact List.nodup_singleton _
  · exact ((inOrder_perm _).map _).nodup_iff.mpr (nodup_chatsIn hkeyed)

/-- The chats there are after the import, in memory. -/
theorem mem_merged {l : Legacy} (hkeyed : Keyed user db) {nowMs : ℕ} :
    c ∈ merged (heldOf user db nowMs) l ↔ chatOf l (row user db c.id) c.id = some c := by
  have hids : c.id ∈ ((heldOf user db nowMs).filter fun c => !placeholder c).map Conversation.id ↔
      ∃ d, row user db c.id = some d ∧ placeholder d = false := by
    rw [List.mem_map]
    constructor
    · rintro ⟨d, hd, hid⟩
      obtain ⟨hrow, hplace⟩ := (mem_kept hkeyed).mp hd
      exact ⟨d, hid ▸ hrow, hplace⟩
    · rintro ⟨d, hrow, hplace⟩
      have hid := hkeyed c.id d hrow
      exact ⟨d, (mem_kept hkeyed).mpr ⟨hid.symm ▸ hrow, hplace⟩, hid⟩
  rw [merged, List.mem_append, mem_kept hkeyed, mem_newChats, hids, chatOf]
  cases hrow : row user db c.id with
  | none => simp
  | some d =>
    cases hplace : placeholder d with
    | true => simp [hplace, Option.filter]; rintro rfl h; rw [hplace] at h; cases h
    | false => simp [hplace, Option.filter]; rintro rfl; exact hplace

theorem rowEnd_some {l : Legacy} (hl : l.conversations ≠ []) (id : ConversationId) :
    rowEnd user (some l) db id = match (row user db id).filter fun c => !placeholder c with
      | some c => some c
      | none => (l.conversations.find? fun c => c.id = id).filter Chats.holds :=
  if_neg hl

theorem placeholder_of_holds (h : Chats.holds c = true) : placeholder c = false := by
  rw [Chats.holds, Bool.not_eq_true'] at h
  exact decide_eq_false fun hplace => Bool.false_ne_true (h.symm.trans hplace.1)

/-- A row in the end is of its id. -/
theorem rowEnd_id (hkeyed : Keyed user db) (h : rowEnd user legacy db id = some c) : c.id = id := by
  rw [rowEnd.eq_def] at h
  split at h
  · split at h
    · exact hkeyed id c h
    · split at h
      · next d hd =>
        cases h
        exact hkeyed id c (Option.filter_eq_some_iff.mp hd).1
      · have hfound := List.find?_some (Option.filter_eq_some_iff.mp h).1
        exact of_decide_eq_true hfound
  · exact hkeyed id c h

theorem Midway.keyed (h : Midway packages user legacy db db') (hkeyed : Keyed user db) :
    Keyed user db' := by
  intro id c hrow
  obtain hsame | hdone | ⟨-, -, -, -, -, -, hnone⟩ := h.rows id
  · exact hkeyed id c (hsame ▸ hrow)
  · exact rowEnd_id hkeyed (hdone ▸ hrow)
  · rw [hnone] at hrow
    cases hrow

/-- The chat an id will stand for is the same on the way. -/
theorem Midway.chatOf_eq {l : Legacy} (h : Midway packages user (some l) db db')
    (hl : l.conversations ≠ []) (id : ConversationId) :
    chatOf l (row user db' id) id = chatOf l (row user db id) id := by
  obtain hsame | hdone | ⟨-, c, -, -, hrow, hplace, hnone⟩ := h.rows id
  · rw [hsame]
  · rw [hdone, rowEnd_some hl, chatOf, chatOf]
    cases hown : (row user db id).filter fun c => !placeholder c with
    | some c =>
      have hplace := (Option.filter_eq_some_iff.mp hown).2
      dsimp only
      rw [Option.filter_some, if_pos hplace]
    | none =>
      dsimp only
      cases hfind : l.conversations.find? fun c => c.id = id with
      | none => rfl
      | some c =>
        rw [Option.filter_some]
        by_cases hholds : Chats.holds c = true
        · rw [if_pos hholds, Option.filter_some, placeholder_of_holds hholds]
          rfl
        · rw [if_neg hholds]
          rfl
  · rw [hnone, hrow, chatOf, chatOf, Option.filter_some, hplace]
    rfl

/-- Two lists of the same chats have the same order. -/
theorem inOrder_congr {a b : List Conversation} (hab : ∀ c, c ∈ a ↔ c ∈ b)
    (ha : (a.map Conversation.id).Nodup) (hb : (b.map Conversation.id).Nodup) :
    inOrder a = inOrder b := by
  have hperm : a.Perm b :=
    (List.perm_ext_iff_of_nodup (List.Nodup.of_map _ ha) (List.Nodup.of_map _ hb)).mpr hab
  have htotal : Std.Total fun a b : Conversation =>
      a.createdMs < b.createdMs ∨ (a.createdMs = b.createdMs ∧ a.id ≤ b.id) := by
    refine ⟨fun c d => ?_⟩
    obtain hlt | heq | hlt := Nat.lt_trichotomy c.createdMs d.createdMs
    · exact .inl (.inl hlt)
    · exact (le_total c.id d.id).imp (fun hle => .inr ⟨heq, hle⟩) fun hle => .inr ⟨heq.symm, hle⟩
    · exact .inr (.inl hlt)
  have htrans : IsTrans Conversation fun a b =>
      a.createdMs < b.createdMs ∨ (a.createdMs = b.createdMs ∧ a.id ≤ b.id) := by
    refine ⟨fun c d e hcd hde => ?_⟩
    obtain hlt | ⟨heq, hle⟩ := hcd
    · obtain hlt' | ⟨heq', -⟩ := hde
      · exact .inl (hlt.trans hlt')
      · exact .inl (heq' ▸ hlt)
    · obtain hlt' | ⟨heq', hle'⟩ := hde
      · exact .inl (heq ▸ hlt')
      · exact .inr ⟨heq.trans heq', hle.trans hle'⟩
  have hsorted : ∀ l : List Conversation, (inOrder l).Pairwise fun a b =>
      a.createdMs < b.createdMs ∨ (a.createdMs = b.createdMs ∧ a.id ≤ b.id) :=
    List.pairwise_insertionSort _
  refine List.Perm.eq_of_pairwise (fun c d hc hd hcd hdc => ?_) (hsorted a) (hsorted b)
    ((inOrder_perm a).trans (hperm.trans (inOrder_perm b).symm))
  have hid : c.id = d.id := by
    obtain hlt | ⟨heq, hle⟩ := hcd
    · obtain hlt' | ⟨heq', -⟩ := hdc
      · exact absurd hlt (Nat.lt_asymm hlt')
      · exact absurd heq' (Nat.ne_of_gt hlt)
    · obtain hlt' | ⟨-, hle'⟩ := hdc
      · exact absurd heq (Nat.ne_of_gt hlt')
      · exact le_antisymm hle hle'
  exact List.inj_on_of_nodup_map ha ((inOrder_perm a).mem_iff.mp hc)
    ((hab d).mpr ((inOrder_perm b).mem_iff.mp hd)) hid

theorem nodup_merged {l : Legacy} (hkeyed : Keyed user db) {nowMs : ℕ} :
    ((merged (heldOf user db nowMs) l).map Conversation.id).Nodup := by
  rw [merged, List.map_append, List.nodup_append]
  refine ⟨nodup_kept hkeyed, nodup_newChats, fun i hi j hj hij => ?_⟩
  obtain ⟨c, hc, hid⟩ := List.mem_map.mp hj
  exact (mem_newChats.mp hc).1 (hid.symm ▸ hij ▸ hi)

/-- The chat that becomes current is the same on the way. -/
theorem Midway.chosen_eq {l : Legacy} (h : Midway packages user (some l) db db')
    (hl : l.conversations ≠ []) (hkeyed : Keyed user db) (nowMs nowMs' : ℕ) :
    chosen l (merged (heldOf user db' nowMs) l) = chosen l (merged (heldOf user db nowMs') l) := by
  have hmem : ∀ c, c ∈ merged (heldOf user db' nowMs) l ↔ c ∈ merged (heldOf user db nowMs') l := by
    intro c
    rw [mem_merged (h.keyed hkeyed), mem_merged hkeyed, h.chatOf_eq hl]
  have hids : l.current ∈ (merged (heldOf user db' nowMs) l).map Conversation.id ↔
      l.current ∈ (merged (heldOf user db nowMs') l).map Conversation.id := by
    rw [List.mem_map, List.mem_map]
    exact exists_congr fun c => and_congr_left fun _ => hmem c
  rw [chosen, chosen, inOrder_congr hmem (nodup_merged (h.keyed hkeyed)) (nodup_merged hkeyed)]
  by_cases hin : l.current ∈ (merged (heldOf user db nowMs') l).map Conversation.id
  · rw [if_pos hin, if_pos (hids.mpr hin)]
  · rw [if_neg hin, if_neg fun h => hin (hids.mp h)]

theorem rowEnd_none (h : ¬imports legacy) (id : ConversationId) :
    rowEnd user legacy db id = row user db id := by
  rw [rowEnd.eq_def]
  split
  · next l =>
    split
    · rfl
    · next hl => exact absurd ⟨l, rfl, hl⟩ h
  · rfl

/-- What a start writes of chats is right. -/
theorem Midway.importWrites_right {l : Legacy} (h : Midway packages user (some l) db db')
    (hkeyed : Keyed user db) (nowMs : ℕ) :
    ∀ w ∈ importWrites (heldOf user db' nowMs) l, Right packages user (some l) db w := by
  intro w hw
  rw [importWrites] at hw
  split at hw
  · cases hw
  · next hl =>
    have himports : imports (some l) := ⟨l, rfl, hl⟩
    have hkeyed' := h.keyed hkeyed
    rw [List.mem_append, List.mem_append, List.mem_map, List.mem_map, List.mem_singleton] at hw
    obtain ⟨c, hc, rfl⟩ | ⟨c, hc, rfl⟩ | rfl := hw
    · obtain ⟨hheld, hplace⟩ := List.mem_filter.mp hc
      refine ⟨himports, ?_⟩
      rw [heldOf_eq] at hheld
      split at hheld
      · next hnone =>
        -- There is no row at all.
        have hrow : row user db' c.id = none := by
          cases hrow : row user db' c.id with
          | none => rfl
          | some d =>
            have hd := (mem_chatsIn hkeyed').mpr (hkeyed' _ d hrow ▸ hrow)
            rw [hnone] at hd
            cases hd
        exact hrow ▸ h.rows c.id
      · have hrow := (mem_chatsIn hkeyed').mp ((inOrder_perm _).mem_iff.mp hheld)
        obtain hsame | hdone | ⟨-, -, -, -, -, -, hnone⟩ := h.rows c.id
        · exact .inr (.inr ⟨l, c, rfl, hl, hsame.symm.trans hrow, hplace, rfl⟩)
        · -- What is there in the end is no placeholder.
          rw [hrow, rowEnd_some hl] at hdone
          split at hdone
          · next d hd =>
            cases hdone
            have hno := (Option.filter_eq_some_iff.mp hd).2
            rw [hplace] at hno
            cases hno
          · have hholds := (Option.filter_eq_some_iff.mp hdone.symm).2
            rw [placeholder_of_holds hholds] at hplace
            cases hplace
        · rw [hrow] at hnone
          cases hnone
    · obtain ⟨hnew, hholds⟩ := List.mem_filter.mp hc
      obtain ⟨hids, hfind⟩ := mem_newChats.mp hnew
      refine ⟨himports, ?_⟩
      rw [rowEnd_some hl]
      cases hown : (row user db c.id).filter fun c => !placeholder c with
      | none =>
        dsimp only
        rw [hfind, Option.filter_some, if_pos hholds]
      | some d =>
        obtain ⟨hd, hplace⟩ := Option.filter_eq_some_iff.mp hown
        rw [Bool.not_eq_true'] at hplace
        have hrow : row user db' c.id = some d := by
          obtain hsame | hdone | ⟨-, e, -, -, he, heplace, -⟩ := h.rows c.id
          · exact hsame.trans hd
          · rw [hdone, rowEnd_some hl, hown]
          · rw [hd] at he
            cases he
            rw [hplace] at heplace
            cases heplace
        have hdid := hkeyed' c.id d hrow
        refine absurd (List.mem_map.mpr ⟨d, (mem_kept hkeyed').mpr ⟨hdid.symm ▸ hrow, hplace⟩, hdid⟩)
          hids
    · exact himports

theorem row_deletes (ids : List ConversationId) (id : ConversationId) :
    row user ((ids.map DbWrite.deleteConversation).foldl (DbWrite.apply user) db) id =
      if id ∈ ids then none else row user db id := by
  induction ids generalizing db with
  | nil => exact (if_neg List.not_mem_nil).symm
  | cons i ids ih =>
    rw [List.map_cons, List.foldl_cons, ih, row_apply]
    dsimp only
    by_cases hin : id ∈ ids
    · rw [if_pos hin, if_pos (List.mem_cons_of_mem _ hin)]
    · rw [if_neg hin]
      by_cases hid : id = i
      · rw [if_pos hid, if_pos (hid ▸ List.mem_cons_self)]
      · rw [if_neg hid, if_neg fun h => (List.mem_cons.mp h).elim hid hin]

/-- Right writes of chats that cover a row leave it as it will be. -/
theorem row_puts {cs : List Conversation}
    (hright : ∀ c ∈ cs, rowEnd user legacy db c.id = some c)
    (hid : row user db' id = rowEnd user legacy db id ∨ ∃ c ∈ cs, c.id = id) :
    row user ((cs.map DbWrite.putConversation).foldl (DbWrite.apply user) db') id =
      rowEnd user legacy db id := by
  induction cs generalizing db' with
  | nil =>
    obtain hdone | ⟨c, hc, -⟩ := hid
    · exact hdone
    · cases hc
  | cons c cs ih =>
    rw [List.map_cons, List.foldl_cons]
    refine ih (fun d hd => hright d (List.mem_cons_of_mem _ hd)) ?_
    rw [row_apply]
    dsimp only
    by_cases heq : id = c.id
    · rw [if_pos heq, heq]
      exact .inl (hright c List.mem_cons_self).symm
    · rw [if_neg heq]
      refine hid.imp_right ?_
      rintro ⟨d, hd, hdid⟩
      obtain rfl | hd := List.mem_cons.mp hd
      · exact absurd hdid.symm heq
      · exact ⟨d, hd, hdid⟩

/-- **The import** leaves every row as it will be. -/
theorem Midway.row_import {l : Legacy} (h : Midway packages user (some l) db db')
    (hl : l.conversations ≠ []) (hkeyed : Keyed user db) (nowMs : ℕ) {db₂ : Database}
    (hrows : ∀ id, row user db₂ id = row user db' id) (id : ConversationId) :
    row user ((importWrites (heldOf user db' nowMs) l).foldl (DbWrite.apply user) db₂) id =
      rowEnd user (some l) db id := by
  have hkeyed' := h.keyed hkeyed
  have hright := h.importWrites_right hkeyed nowMs
  rw [importWrites, if_neg hl] at hright ⊢
  have hdeletes : ((heldOf user db' nowMs).filter fun c => placeholder c).map
      (fun c => DbWrite.deleteConversation c.id) =
      (((heldOf user db' nowMs).filter fun c => placeholder c).map Conversation.id).map
        DbWrite.deleteConversation := (List.map_map ..).symm
  rw [hdeletes, List.foldl_append, List.foldl_append, List.foldl_cons, List.foldl_nil, row_apply]
  dsimp only
  refine row_puts (fun c hc => ?_) ?_
  · exact (hright (.putConversation c) (List.mem_append_right _ (List.mem_append_left _
      (List.mem_map_of_mem hc)))).2
  rw [row_deletes, hrows]
  -- A row that stays, and one that goes or is not there.
  cases hown : (row user db' id).filter fun c => !placeholder c with
  | some c =>
    obtain ⟨hrow, hplace⟩ := Option.filter_eq_some_iff.mp hown
    rw [Bool.not_eq_true'] at hplace
    refine .inl ?_
    have hstays : id ∉ ((heldOf user db' nowMs).filter fun c => placeholder c).map
        Conversation.id := by
      intro hin
      obtain ⟨d, hd, hdid⟩ := List.mem_map.mp hin
      obtain ⟨hheld, hdplace⟩ := List.mem_filter.mp hd
      have hc := (mem_chatsIn hkeyed').mpr (hkeyed' _ c hrow ▸ hrow)
      rw [heldOf_eq, if_neg (List.ne_nil_of_mem hc), (inOrder_perm _).mem_iff,
        mem_chatsIn hkeyed', hdid, hrow] at hheld
      cases hheld
      rw [hplace] at hdplace
      cases hdplace
    rw [if_neg hstays]
    obtain hsame | hdone | ⟨-, -, -, -, -, -, hnone⟩ := h.rows id
    · rw [rowEnd_some hl, ← hsame, hown]
      exact hrow
    · exact hdone
    · rw [hrow] at hnone
      cases hnone
  | none =>
    have hgone : (if id ∈ ((heldOf user db' nowMs).filter fun c => placeholder c).map
        Conversation.id then none else row user db' id) = none := by
      cases hrow : row user db' id with
      | none => exact ite_self _
      | some c =>
        rw [hrow, Option.filter_some] at hown
        have hplace : placeholder c = true := by
          by_contra hno
          rw [Bool.not_eq_true] at hno
          rw [hno] at hown
          cases hown
        refine if_pos (List.mem_map.mpr ⟨c, List.mem_filter.mpr ⟨?_, hplace⟩, hkeyed' _ c hrow⟩)
        have hc := (mem_chatsIn hkeyed').mpr (hkeyed' _ c hrow ▸ hrow)
        rw [heldOf_eq, if_neg (List.ne_nil_of_mem hc), (inOrder_perm _).mem_iff]
        exact hc
    rw [hgone]
    cases hend : rowEnd user (some l) db id with
    | none => exact .inl rfl
    | some c =>
      rw [rowEnd_some hl] at hend
      split at hend
      · next d hd =>
        -- It was a chat of its own, and still is.
        refine absurd hown ?_
        obtain hsame | hdone | ⟨-, e, -, -, he, heplace, -⟩ := h.rows id
        · rw [hsame, hd]
          exact nofun
        · rw [hdone, rowEnd_some hl, hd, Option.filter_some,
            if_pos (Option.filter_eq_some_iff.mp hd).2]
          exact nofun
        · rw [he, Option.filter_some, heplace] at hd
          cases hd
      · obtain ⟨hfind, hholds⟩ := Option.filter_eq_some_iff.mp hend
        have hfound := List.find?_some hfind
        have hcid : c.id = id := of_decide_eq_true hfound
        refine .inr ⟨c, List.mem_filter.mpr ⟨mem_newChats.mpr ⟨fun hin => ?_, ?_⟩, hholds⟩, hcid⟩
        · obtain ⟨d, hd, hdid⟩ := List.mem_map.mp hin
          obtain ⟨hrow, hplace⟩ := (mem_kept hkeyed').mp hd
          rw [hdid, hcid] at hrow
          rw [hrow, Option.filter_some, hplace] at hown
          cases hown
        · rw [hcid]
          exact hfind

/-! ### The writes before the legacy file is renamed -/

variable (packages user legacy) in
theorem bodyWrites_eq (hversion : db.version < schemaVersion) (nowMs : ℕ) :
    bodyWrites packages user legacy nowMs db = .load nowMs :: (documentWrites packages user db ++
      legacy.elim [] (importWrites (heldOf user db nowMs))) := by
  rw [bodyWrites, if_neg (Nat.not_le_of_lt hversion)]
  rfl

theorem version_applyAll (hws : ∀ w ∈ ws, Right packages user legacy db w) :
    (ws.foldl (DbWrite.apply user) db').version = db'.version := by
  induction ws generalizing db' with
  | nil => rfl
  | cons w ws ih =>
    rw [List.foldl_cons, ih fun w' hw' => hws w' (List.mem_cons_of_mem _ hw')]
    have hw := hws w List.mem_cons_self
    cases w with
    | setVersion => exact hw.elim
    | _ => rfl

variable (user db) in
/-- Writes of documents leave the chats. -/
theorem chats_documents (hws : ∀ w ∈ ws, ∃ id record, w = .putDocument id record) :
    (ws.foldl (DbWrite.apply user) db).store.conversations = db.store.conversations ∧
      currentId user (ws.foldl (DbWrite.apply user) db) = currentId user db := by
  induction ws generalizing db with
  | nil => exact ⟨rfl, rfl⟩
  | cons w ws ih =>
    obtain ⟨id, record, rfl⟩ := hws w List.mem_cons_self
    exact ih _ fun w' hw' => hws w' (List.mem_cons_of_mem _ hw')

/-- The database as it is in the end, with the chat that is current then. -/
structure Ended (packages : List Package) (user : UserId) (legacy : Option Legacy)
    (db : Database) (current : ConversationId) (db' : Database) : Prop where
  alike : Alike user db db'
  documents : ∀ id, db'.store.getDocument id = docEnd packages user db id
  rows : ∀ id, row user db' id = rowEnd user legacy db id
  current : currentId user db' = current

theorem Midway.body_right (h : Midway packages user legacy db db')
    (hversion : db'.version = db.version) (hlow : db.version < schemaVersion)
    (hkeyed : Keyed user db) (nowMs : ℕ) :
    ∀ w ∈ bodyWrites packages user legacy nowMs db', Right packages user legacy db w := by
  intro w hw
  rw [bodyWrites_eq _ _ _ (hversion ▸ hlow), List.mem_cons, List.mem_append] at hw
  obtain rfl | hdocument | himport := hw
  · trivial
  · obtain ⟨id, record, rfl, hend⟩ := h.documentWrites_right hversion w hdocument
    exact hend
  · cases legacy with
    | none => cases himport
    | some l => exact h.importWrites_right hkeyed nowMs w himport

/-- **The writes before the rename** leave the database as it is in the end. -/
theorem Midway.body (h : Midway packages user legacy db db')
    (hversion : db'.version = db.version) (hlow : db.version < schemaVersion)
    (hkeyed : Keyed user db) (nowMs : ℕ) :
    Ended packages user legacy db (currentEnd user legacy db nowMs)
      ((bodyWrites packages user legacy nowMs db').foldl (DbWrite.apply user) db') := by
  have hright := h.body_right hversion hlow hkeyed nowMs
  have hmidway := h.applyAll hright
  have hdocuments : ∀ w ∈ documentWrites packages user db', ∃ id record,
      w = .putDocument id record := fun w hw => by
    obtain ⟨id, record, heq, -⟩ := h.documentWrites_right hversion w hw
    exact ⟨id, record, heq⟩
  have hbody := bodyWrites_eq packages user legacy
    (hversion ▸ hlow : db'.version < schemaVersion) nowMs
  have hchats := chats_documents user (DbWrite.apply user db' (.load nowMs)) hdocuments
  rw [conversations_load, currentId_load] at hchats
  refine ⟨hmidway.alike, fun id => ?_, fun id => ?_, ?_⟩
  · refine getDocument_applyAll (fun w hw id record heq => ?_) ?_
    · have hdone := hright w hw
      rw [heq] at hdone
      exact hdone
    · refine (h.documentWrites_all hversion id).imp_right ?_
      rintro ⟨record, hmem⟩
      refine ⟨record, ?_⟩
      rw [hbody]
      exact List.mem_cons_of_mem _ (List.mem_append_left _ hmem)
  · by_cases himports : imports legacy
    · obtain ⟨l, rfl, hl⟩ := himports
      rw [hbody, List.foldl_cons, List.foldl_append]
      refine h.row_import hl hkeyed nowMs (fun id => ?_) id
      rw [row, hchats.1]
      rfl
    · obtain hsame | hdone | ⟨l, -, hlegacy, hl, -⟩ := hmidway.rows id
      · rw [hsame, rowEnd_none himports]
      · exact hdone
      · exact absurd ⟨l, hlegacy, hl⟩ himports
  · rw [hbody, List.foldl_cons, List.foldl_append]
    by_cases himports : imports legacy
    · obtain ⟨l, rfl, hl⟩ := himports
      have hend : currentEnd user (some l) db nowMs =
          chosen l (merged (heldOf user db nowMs) l) := if_neg hl
      rw [hend, ← h.chosen_eq hl hkeyed nowMs nowMs]
      change currentId user ((importWrites (heldOf user db' nowMs) l).foldl _ _) = _
      rw [importWrites, if_neg hl, ← List.append_assoc, List.foldl_append, List.foldl_cons,
        List.foldl_nil, currentId_setCurrent]
    · have hnone : legacy.elim [] (importWrites (heldOf user db' nowMs)) = [] := by
        cases legacy with
        | none => rfl
        | some l =>
          refine if_pos ?_
          by_contra hl
          exact himports ⟨l, rfl, hl⟩
      rw [hnone, List.foldl_nil, hchats.2]
      exact (h.others himports).2 nowMs

/-! ### Starts -/

/-- The chat that becomes current holds a message, so that it is written. -/
def Saved (user : UserId) (legacy : Option Legacy) (db : Database) : Prop :=
  ∃ c, rowEnd user legacy db (currentEnd user legacy db 0) = some c

/-- A database after the rename, until the version is written and from then on. -/
structure Done (packages : List Package) (user : UserId) (legacy : Option Legacy)
    (db db' : Database) : Prop where
  midway : Midway packages user legacy db db'
  documents : ∀ id, db'.store.getDocument id = docEnd packages user db id
  rows : ∀ id, row user db' id = rowEnd user legacy db id
  current : imports legacy → currentId user db' = currentEnd user legacy db 0 ∧
    Saved user legacy db
  version : db'.version = db.version ∨ db'.version = schemaVersion

theorem currentEnd_eq (h : imports legacy) (hkeyed : Keyed user db) (nowMs nowMs' : ℕ) :
    currentEnd user legacy db nowMs = currentEnd user legacy db nowMs' := by
  obtain ⟨l, rfl, hl⟩ := h
  have hend : ∀ now, currentEnd user (some l) db now =
      chosen l (merged (heldOf user db now) l) := fun now => if_neg hl
  rw [hend, hend]
  exact (Midway.refl [] (some l) db).chosen_eq hl hkeyed nowMs nowMs'

/-- A write of a later start: a load, a document, the version. -/
def Later (packages : List Package) (user : UserId) (db : Database) : DbWrite → Prop
  | .load _ | .setVersion => True
  | .putDocument id record => docEnd packages user db id = some record
  | _ => False

theorem Done.load_current (h : Done packages user legacy db db') (hkeyed : Keyed user db)
    (nowMs : ℕ) : currentOf (chatsIn user db') (currentId user db') nowMs =
      currentEnd user legacy db nowMs := by
  by_cases himports : imports legacy
  · obtain ⟨hcurrent, c, hc⟩ := h.current himports
    have hid := rowEnd_id hkeyed hc
    have hin : c ∈ chatsIn user db' := by
      rw [mem_chatsIn (h.midway.keyed hkeyed), h.rows, hid]
      exact hc
    rw [currentEnd_eq himports hkeyed nowMs 0, ← hcurrent, currentOf,
      if_neg (List.ne_nil_of_mem hin), if_pos]
    exact List.mem_map.mpr ⟨c, hin, hid.trans hcurrent.symm⟩
  · exact (h.midway.others himports).2 nowMs

theorem Done.apply (h : Done packages user legacy db db') (hkeyed : Keyed user db)
    (hw : Later packages user db w) : Done packages user legacy db (w.apply user db') := by
  cases w with
  | load nowMs =>
    refine ⟨h.midway.apply trivial, fun id => ?_, fun id => ?_, fun himports => ?_, ?_⟩
    · rw [getDocument_apply]
      exact h.documents id
    · rw [row_apply]
      exact h.rows id
    · rw [currentId_load, h.load_current hkeyed, currentEnd_eq himports hkeyed nowMs 0]
      exact ⟨rfl, (h.current himports).2⟩
    · exact h.version
  | putDocument i record =>
    have hright : Right packages user legacy db (.putDocument i record) := hw
    refine ⟨h.midway.apply hright, fun id => ?_, h.rows, h.current, h.version⟩
    rw [getDocument_apply]
    dsimp only
    split
    · next hid => rw [hid, ← hw]
    · exact h.documents id
  | setVersion =>
    exact ⟨⟨alike_apply h.midway.alike .setVersion, h.midway.documents, h.midway.rows,
      h.midway.others⟩, h.documents, h.rows, h.current, .inr rfl⟩
  | deleteConversation i => exact hw.elim
  | putConversation c => exact hw.elim
  | setCurrent i => exact hw.elim

theorem Done.applyAll (h : Done packages user legacy db db') (hkeyed : Keyed user db)
    (hws : ∀ w ∈ ws, Later packages user db w) :
    Done packages user legacy db (ws.foldl (DbWrite.apply user) db') := by
  induction ws generalizing db' with
  | nil => exact h
  | cons w ws ih =>
    exact ih (h.apply hkeyed (hws w List.mem_cons_self)) fun w' hw' =>
      hws w' (List.mem_cons_of_mem _ hw')

/-- The writes of a later start, all of them to the database. -/
@[grind =]
def laterWrites (packages : List Package) (user : UserId) (nowMs : ℕ) (db : Database) :
    List DbWrite :=
  .load nowMs :: if schemaVersion ≤ db.version then []
    else documentWrites packages user db ++ [.setVersion]

theorem openedWrites_none (nowMs : ℕ) (db : Database) :
    openedWrites packages user none nowMs db = (laterWrites packages user nowMs db).map .inDb := by
  rw [openedWrites, laterWrites, bodyWrites]
  by_cases hversion : schemaVersion ≤ db.version
  · rw [if_pos hversion, if_pos hversion, if_pos hversion]
    rfl
  · rw [if_neg hversion, if_neg hversion, if_neg hversion, List.map_cons, List.map_cons,
      List.map_append, List.map_append]
    change _ :: (List.map _ (documentWrites packages user db) ++ []) ++ [_] = _
    rw [List.append_nil]
    rfl

theorem Done.later (h : Done packages user legacy db db') (nowMs : ℕ) :
    ∀ w ∈ laterWrites packages user nowMs db', Later packages user db w := by
  intro w hw
  rw [laterWrites, List.mem_cons] at hw
  obtain rfl | hw := hw
  · trivial
  · split at hw
    · cases hw
    · next hlow =>
      have hversion : db'.version = db.version :=
        h.version.resolve_right fun heq => hlow (heq ▸ Nat.le_refl _)
      rw [List.mem_append, List.mem_singleton] at hw
      obtain hw | rfl := hw
      · obtain ⟨id, record, rfl, hend⟩ := h.midway.documentWrites_right hversion w hw
        exact hend
      · trivial

/-- A later start leaves the database as it is in the end. -/
theorem Done.ended (h : Done packages user legacy db db') (hkeyed : Keyed user db) (nowMs : ℕ) :
    Ended packages user legacy db (currentEnd user legacy db nowMs)
      ((laterWrites packages user nowMs db').foldl (DbWrite.apply user) db') ∧
      ((laterWrites packages user nowMs db').foldl (DbWrite.apply user) db').version =
        max db'.version schemaVersion := by
  have hdone := h.applyAll hkeyed (h.later nowMs)
  have hcurrent := currentId_load user db' nowMs
  rw [h.load_current hkeyed] at hcurrent
  rw [laterWrites, List.foldl_cons] at hdone ⊢
  split
  · next hversion =>
    rw [if_pos hversion] at hdone
    exact ⟨⟨hdone.midway.alike, hdone.documents, hdone.rows, hcurrent⟩, (max_eq_left hversion).symm⟩
  · next hversion =>
    rw [if_neg hversion] at hdone
    have hlow : db'.version = db.version :=
      h.version.resolve_right fun heq => hversion (heq ▸ Nat.le_refl _)
    have hdocuments : ∀ w ∈ documentWrites packages user db', ∃ id record,
        w = .putDocument id record := fun w hw => by
      obtain ⟨id, record, heq, -⟩ := h.midway.documentWrites_right hlow w hw
      exact ⟨id, record, heq⟩
    refine ⟨⟨hdone.midway.alike, hdone.documents, hdone.rows, ?_⟩, ?_⟩
    · rw [List.foldl_append]
      exact (chats_documents _ _ hdocuments).2.trans hcurrent
    · rw [List.foldl_append]
      exact (max_eq_right (Nat.le_of_not_le hversion)).symm

theorem foldl_inDb {d : Disk} (hfile : d.file = some (.whole db)) :
    (ws.map Write.inDb).foldl (Write.apply user) d =
      { d with file := some (.whole (ws.foldl (DbWrite.apply user) db)) } := by
  induction ws generalizing d db with
  | nil =>
    cases d
    cases hfile
    rfl
  | cons w ws ih =>
    have hstep : Write.apply user d (.inDb w) = { d with file := some (.whole (w.apply user db)) } := by
      rw [Write.apply, hfile]
    rw [List.map_cons, List.foldl_cons, hstep, ih rfl]
    rfl

end Writes

/-! ### The directory -/

section Disks

variable (packages : List Package) (user : UserId) (d₀ : Disk) (db : Database)

/-- The database that a directory begins with: its own, or the version 1 file. -/
def Source : Prop :=
  d₀.file = some (.whole db) ∧ d₀.readOnly = false ∨ d₀.file = none ∧ ∃ readOnly, d₀.v1 = some (db, readOnly)

/-- A directory part of the way, before the legacy file is renamed, and from then on. -/
inductive Phase (d : Disk) : Prop
  | before (db' : Database) (v1 : d.v1 = d₀.v1) (file : d.file = some (.whole db'))
      (writable : d.readOnly = false) (legacy : d.legacy = d₀.legacy)
      (imported : d.imported = d₀.imported) (midway : Midway packages user d₀.legacy db db')
      (version : db'.version = db.version)
  | after (db' : Database) (v1 : d.v1 = d₀.v1) (file : d.file = some (.whole db'))
      (writable : d.readOnly = false) (legacy : d.legacy = none)
      (imported : d.imported = d₀.legacy.or d₀.imported) (done : Done packages user d₀.legacy db db')

/-- A directory that is migrated: the version 1 file is as it was, the legacy file has its other
name, and the database is as it is in the end. -/
structure Migrated (nowMs : ℕ) (d : Disk) : Prop where
  v1 : d.v1 = d₀.v1
  writable : d.readOnly = false
  legacy : d.legacy = none
  imported : d.imported = d₀.legacy.or d₀.imported
  database : ∃ db', d.file = some (.whole db') ∧ db'.version = schemaVersion ∧
    Ended packages user d₀.legacy db (currentEnd user d₀.legacy db nowMs) db'

/-- What is asked of a kill: it does not come while the version 1 file is copied (the first four
writes; where that file is not read-only, the copy may be all there is); and where it comes after
the legacy file was renamed, the chat that becomes current holds a message. -/
def Meets (d : Disk) (kill : ℕ × ℕ) : Prop :=
  (d.file = none → kill.2 = 0 ∨ 4 ≤ kill.2 ∨
    kill.2 = 3 ∧ ∀ db readOnly, d.v1 = some (db, readOnly) → readOnly = false) ∧
  (.renameLegacy ∈ (startWrites packages user kill.1 d).take kill.2 → imports d₀.legacy →
    ∀ db, Source d₀ db → Saved user d₀.legacy db)

end Disks

section Kills

variable {packages : List Package} {user : UserId} {d₀ d : Disk} {db : Database} {kill : ℕ × ℕ}

theorem startWrites_whole {db' : Database} (hfile : d.file = some (.whole db'))
    (hwritable : d.readOnly = false) (nowMs : ℕ) :
    startWrites packages user nowMs d = openedWrites packages user d.legacy nowMs db' := by
  rw [startWrites, hfile]
  dsimp only
  rw [hwritable]
  rfl

/-- The writes of a start before the rename. -/
theorem openedWrites_eq {legacy : Option Legacy} {db' : Database}
    (hlow : db'.version < schemaVersion) (nowMs : ℕ) :
    openedWrites packages user legacy nowMs db' =
      (bodyWrites packages user legacy nowMs db').map .inDb ++
        tailWrites legacy := by
  rw [openedWrites, if_neg (Nat.not_le_of_lt hlow)]

/-- The database once the chats are in, with the legacy file renamed. -/
theorem Midway.done {db' : Database} (h : Midway packages user d₀.legacy db db')
    (hversion : db'.version = db.version) (hlow : db.version < schemaVersion)
    (hkeyed : Keyed user db) (nowMs : ℕ)
    (hsaved : imports d₀.legacy → Saved user d₀.legacy db) :
    Done packages user d₀.legacy db
      ((bodyWrites packages user d₀.legacy nowMs db').foldl (DbWrite.apply user) db') := by
  have hright := h.body_right hversion hlow hkeyed nowMs
  have hended := h.body hversion hlow hkeyed nowMs
  refine ⟨h.applyAll hright, hended.documents, hended.rows, fun himports => ⟨?_, hsaved himports⟩,
    .inl ((version_applyAll hright).trans hversion)⟩
  rw [hended.current]
  exact currentEnd_eq himports hkeyed nowMs 0

/-- The last two writes: the rename, where there is a legacy file, and the version. -/
theorem Phase.tail {db' : Database} (v1 : d.v1 = d₀.v1) (writable : d.readOnly = false)
    (legacy : d.legacy = d₀.legacy) (imported : d.imported = d₀.imported)
    (k : ℕ) (hdone : (Write.renameLegacy ∈ (tailWrites d₀.legacy).take (k + 1) ∨ ¬imports d₀.legacy) →
      Done packages user d₀.legacy db db')
    (hkeyed : Keyed user db) :
    Phase packages user d₀ db (((tailWrites d₀.legacy).take (k + 1)).foldl (Write.apply user)
      { d with file := some (.whole db') }) := by
  have hstamped : Done packages user d₀.legacy db db' →
      Done packages user d₀.legacy db (DbWrite.apply user db' .setVersion) := fun h =>
    h.apply (w := .setVersion) hkeyed trivial
  cases hlegacy : d₀.legacy with
  | none =>
    have hnot : ¬imports d₀.legacy := fun ⟨l, hl, _⟩ => by
      rw [hlegacy] at hl
      cases hl
    have hwrites : (tailWrites none).take (k + 1) = [.inDb .setVersion] := by
      cases k <;> rfl
    rw [hwrites]
    refine .after _ v1 rfl writable (legacy.trans hlegacy) ?_ (hstamped (hdone (.inr hnot)))
    rw [hlegacy]
    exact imported
  | some l =>
    have himported : d.legacy = d₀.legacy.or d₀.imported := by
      rw [legacy, hlegacy]
      rfl
    cases k with
    | zero =>
      refine .after db' v1 rfl writable rfl himported (hdone (.inl ?_))
      rw [hlegacy]
      exact List.mem_cons_self
    | succ k =>
      have hwrites : (tailWrites (some l)).take (k + 1 + 1) =
          [.renameLegacy, .inDb .setVersion] := by
        cases k <;> rfl
      rw [hwrites]
      refine .after _ v1 rfl writable rfl himported (hstamped (hdone (.inl ?_)))
      rw [hlegacy]
      exact List.mem_cons_self

/-- **A killed start** leaves a directory part of the way. -/
theorem Phase.killed (h : Phase packages user d₀ db d) (hlow : db.version < schemaVersion)
    (hkeyed : Keyed user db)
    (hsaved : .renameLegacy ∈ (startWrites packages user kill.1 d).take kill.2 →
      imports d₀.legacy → Saved user d₀.legacy db) :
    Phase packages user d₀ db (Migration.killed packages user d kill) := by
  obtain ⟨nowMs, n⟩ := kill
  rw [Migration.killed]
  dsimp only at hsaved ⊢
  cases h with
  | after db' v1 file writable legacy imported done =>
    rw [startWrites_whole file writable, legacy, openedWrites_none, ← List.map_take,
      foldl_inDb file]
    refine .after _ v1 rfl writable legacy imported (done.applyAll hkeyed fun w hw => ?_)
    exact done.later nowMs w (List.mem_of_mem_take hw)
  | before db' v1 file writable legacy imported midway version =>
    rw [startWrites_whole file writable, legacy, openedWrites_eq (version ▸ hlow)] at hsaved ⊢
    have hright := midway.body_right version hlow hkeyed nowMs
    by_cases hn : n ≤ ((bodyWrites packages user d₀.legacy nowMs db').map Write.inDb).length
    · rw [List.take_append_of_le_length hn, ← List.map_take, foldl_inDb file]
      have hpart : ∀ w ∈ (bodyWrites packages user d₀.legacy nowMs db').take n,
          Right packages user d₀.legacy db w := fun w hw => hright w (List.mem_of_mem_take hw)
      exact .before _ v1 rfl writable legacy imported (midway.applyAll hpart)
        ((version_applyAll hpart).trans version)
    · obtain ⟨k, hk⟩ := Nat.exists_eq_add_of_lt (Nat.lt_of_not_le hn)
      rw [hk, Nat.add_assoc, List.take_length_add_append] at hsaved ⊢
      rw [List.foldl_append, foldl_inDb file]
      refine Phase.tail v1 writable legacy imported k (fun hrename => ?_) hkeyed
      refine midway.done version hlow hkeyed nowMs fun himports => ?_
      obtain hrename | hnot := hrename
      · exact hsaved (List.mem_append_right _ hrename) himports
      · exact absurd himports hnot

/-- **A start that is not killed** migrates a directory from anywhere on its way. -/
theorem Phase.started (h : Phase packages user d₀ db d) (hlow : db.version < schemaVersion)
    (hkeyed : Keyed user db) (nowMs : ℕ) :
    Migrated packages user d₀ db nowMs (Migration.started packages user nowMs d) := by
  rw [Migration.started]
  cases h with
  | after db' v1 file writable legacy imported done =>
    obtain ⟨hended, hversion⟩ := done.ended hkeyed nowMs
    rw [startWrites_whole file writable, legacy, openedWrites_none, foldl_inDb file]
    refine ⟨v1, writable, legacy, imported, _, rfl, hversion.trans (max_eq_right ?_), hended⟩
    obtain heq | heq := done.version
    · exact heq ▸ Nat.le_of_lt hlow
    · exact Nat.le_of_eq heq
  | before db' v1 file writable legacy imported midway version =>
    have hended := midway.body version hlow hkeyed nowMs
    rw [startWrites_whole file writable, legacy, openedWrites_eq (version ▸ hlow),
      List.foldl_append, foldl_inDb file]
    have hstamped : Ended packages user d₀.legacy db (currentEnd user d₀.legacy db nowMs)
        (DbWrite.apply user ((bodyWrites packages user d₀.legacy nowMs db').foldl
          (DbWrite.apply user) db') .setVersion) :=
      ⟨alike_apply hended.alike .setVersion, hended.documents, hended.rows, hended.current⟩
    cases hlegacy : d₀.legacy with
    | none =>
      rw [hlegacy] at hstamped
      refine ⟨v1, writable, legacy.trans hlegacy, ?_, _, rfl, rfl, hlegacy ▸ hstamped⟩
      rw [hlegacy]
      exact imported
    | some l =>
      rw [hlegacy] at hstamped
      refine ⟨v1, writable, rfl, ?_, _, rfl, rfl, hlegacy ▸ hstamped⟩
      rw [hlegacy]
      exact legacy.trans hlegacy

/-- The directory once the version 1 file is copied. -/
@[grind =]
def copiedTo (d₀ : Disk) (db : Database) : Disk :=
  { d₀ with file := some (.whole db), readOnly := false }

variable (packages user) in
theorem phase_copied (d₀ : Disk) (db : Database) :
    Phase packages user d₀ db (copiedTo d₀ db) :=
  .before db rfl rfl rfl rfl rfl (.refl packages d₀.legacy db) rfl

/-- The copy, and the start from there. -/
theorem startWrites_copy {readOnly : Bool} (hfile : d₀.file = none)
    (hv1 : d₀.v1 = some (db, readOnly)) (nowMs : ℕ) :
    startWrites packages user nowMs d₀ = [.copyBegun, .copyTorn, .copied, .writable] ++
      startWrites packages user nowMs (copiedTo d₀ db) := by
  rw [startWrites_whole (d := copiedTo d₀ db) rfl rfl, startWrites, hfile, hv1]
  rfl

theorem foldl_copy {readOnly : Bool} (hv1 : d₀.v1 = some (db, readOnly)) :
    [Write.copyBegun, .copyTorn, .copied, .writable].foldl (Write.apply user) d₀ =
      copiedTo d₀ db := by
  simp only [List.foldl_cons, List.foldl_nil, Write.apply, hv1]
  rw [copiedTo, hv1]

theorem started_copy {readOnly : Bool} (hfile : d₀.file = none)
    (hv1 : d₀.v1 = some (db, readOnly)) (nowMs : ℕ) :
    started packages user nowMs d₀ = started packages user nowMs (copiedTo d₀ db) := by
  rw [started, startWrites_copy hfile hv1, List.foldl_append, foldl_copy hv1]
  rfl

/-- A kill outside the copy leaves the directory untouched, or on its way. -/
theorem killed_copy {readOnly : Bool} (hfile : d₀.file = none) (hv1 : d₀.v1 = some (db, readOnly))
    (hlow : db.version < schemaVersion) (hkeyed : Keyed user db)
    (hmeets : Meets packages user d₀ d₀ kill) (hsource : Source d₀ db) :
    killed packages user d₀ kill = d₀ ∨
      Phase packages user d₀ db (killed packages user d₀ kill) := by
  obtain ⟨nowMs, n⟩ := kill
  obtain ⟨hcopy, hsaved⟩ := hmeets
  obtain hn | hn | ⟨hn, hwritable⟩ := hcopy hfile
  · refine .inl ?_
    change n = 0 at hn
    rw [hn]
    rfl
  · obtain ⟨k, hk⟩ := Nat.exists_eq_add_of_le hn
    change n = 4 + k at hk
    subst hk
    have hlater : killed packages user d₀ (nowMs, 4 + k) =
        killed packages user (copiedTo d₀ db) (nowMs, k) := by
      rw [killed, killed, startWrites_copy hfile hv1]
      dsimp only
      rw [show 4 + k = [Write.copyBegun, .copyTorn, .copied, .writable].length + k from rfl,
        List.take_length_add_append, List.foldl_append, foldl_copy hv1]
    rw [hlater]
    refine .inr ((phase_copied _ _ d₀ db).killed hlow hkeyed fun hrename himports => ?_)
    refine hsaved ?_ himports db hsource
    rw [startWrites_copy hfile hv1]
    dsimp only at hrename ⊢
    rw [show 4 + k = [Write.copyBegun, .copyTorn, .copied, .writable].length + k from rfl,
      List.take_length_add_append]
    exact List.mem_append_right _ hrename
  · refine .inr ?_
    have hready : killed packages user d₀ (nowMs, n) = copiedTo d₀ db := by
      change n = 3 at hn
      rw [hn, killed, startWrites_copy hfile hv1]
      simp only [List.cons_append, List.nil_append, List.take_succ_cons, List.take_zero,
        List.foldl_cons, List.foldl_nil, Write.apply, hv1]
      rw [hwritable db readOnly hv1, copiedTo, hv1, hwritable db readOnly hv1]
    rw [hready]
    exact phase_copied _ _ d₀ db

/-- **Killed starts**, one after another. -/
theorem phase_killedEach {kills : List (ℕ × ℕ)} (hsource : Source d₀ db)
    (hlow : db.version < schemaVersion) (hkeyed : Keyed user db)
    (h : ∀ before kill after, kills = before ++ kill :: after →
      Meets packages user d₀ (killedEach packages user d₀ before) kill) :
    killedEach packages user d₀ kills = d₀ ∨
      Phase packages user d₀ db (killedEach packages user d₀ kills) := by
  induction kills using List.reverseRecOn with
  | nil => exact .inl rfl
  | append_singleton kills kill ih =>
    have hmeets := h kills kill [] rfl
    have hbefore := ih fun before kill' after hsplit =>
      h before kill' (after ++ [kill]) (by rw [hsplit, List.append_assoc]; rfl)
    rw [killedEach, List.foldl_append]
    change killed packages user (killedEach packages user d₀ kills) kill = d₀ ∨
      Phase packages user d₀ db (killed packages user (killedEach packages user d₀ kills) kill)
    obtain heq | hphase := hbefore
    · rw [heq] at hmeets ⊢
      obtain ⟨hfile, hwritable⟩ | ⟨hfile, readOnly, hv1⟩ := hsource
      · have hready : d₀ = copiedTo d₀ db := by
          rw [copiedTo, ← hfile, ← hwritable]
        have hphase := phase_copied packages user d₀ db
        rw [← hready] at hphase
        exact .inr (hphase.killed hlow hkeyed fun hrename himports =>
          hmeets.2 hrename himports db (.inl ⟨hfile, hwritable⟩))
      · exact killed_copy hfile hv1 hlow hkeyed hmeets (.inr ⟨hfile, readOnly, hv1⟩)
    · exact .inr (hphase.killed hlow hkeyed fun hrename himports =>
        hmeets.2 hrename himports db hsource)

/-- Two directories with the same database, table by table. -/
structure Same (user : UserId) (d d' : Disk) : Prop where
  v1 : d'.v1 = d.v1
  readOnly : d'.readOnly = d.readOnly
  legacy : d'.legacy = d.legacy
  imported : d'.imported = d.imported
  database : ∃ db db', d.file = some (.whole db) ∧ d'.file = some (.whole db') ∧
    db'.version = db.version ∧ db'.commits = db.commits ∧
    (∀ id, db'.store.getDocument id = db.store.getDocument id) ∧
    (∀ key, db'.store.conversations.lookup key = db.store.conversations.lookup key) ∧
    (∀ key, (db'.store.currentConversations.lookup key).getD "" =
      (db.store.currentConversations.lookup key).getD "") ∧
    db'.store.workspaces = db.store.workspaces ∧ db'.store.ledgers = db.store.ledgers ∧
    db'.store.currentWorkspaces = db.store.currentWorkspaces ∧ db'.store.users = db.store.users

/-- What a migration is for: every document with history has its record, of a package of its name
where one is installed; every chat of the legacy file that holds a message is there with its
messages, unless one of its id was there already, and under one id there is one; the chat that the
legacy file named is current; and the version 1 file is as it was. -/
structure Promised (packages : List Package) (user : UserId) (d₀ : Disk) (db : Database) (d : Disk) :
    Prop where
  v1 : d.v1 = d₀.v1
  database : ∃ db', d.file = some (.whole db') ∧ db'.version = schemaVersion ∧
    (db.version < 2 → ∀ c ∈ db.commits, ¬skipped c.doc → ∃ record,
      db'.store.getDocument c.doc = some record ∧
        (db.store.getDocument c.doc = none → ∀ p ∈ packages, legacyId p.id = c.doc →
          ∃ q ∈ packages, legacyId q.id = c.doc ∧ record.harness = some q.id)) ∧
    (∀ id c, row user db' id = some c → c.id = id) ∧
    ∀ l, d₀.legacy = some l → l.conversations ≠ [] →
      (∀ c ∈ l.conversations, Chats.holds c = true →
        l.conversations.find? (fun d => d.id = c.id) = some c →
          (∀ own, row user db c.id = some own → placeholder own = true) →
            row user db' c.id = some c) ∧
      (l.current ∈ l.conversations.map Conversation.id → currentId user db' = l.current)

theorem Migrated.same {d' : Disk} {nowMs : ℕ} (h : Migrated packages user d₀ db nowMs d)
    (h' : Migrated packages user d₀ db nowMs d') : Same user d d' := by
  obtain ⟨db₁, hfile, hversion, hended⟩ := h.database
  obtain ⟨db₂, hfile', hversion', hended'⟩ := h'.database
  refine ⟨h'.v1.trans h.v1.symm, h'.writable.trans h.writable.symm, h'.legacy.trans h.legacy.symm,
    h'.imported.trans h.imported.symm, db₁, db₂, hfile, hfile', hversion'.trans hversion.symm,
    hended'.alike.commits.trans hended.alike.commits.symm,
    fun id => (hended'.documents id).trans (hended.documents id).symm, fun key => ?_, fun key => ?_,
    hended'.alike.workspaces.trans hended.alike.workspaces.symm,
    hended'.alike.ledgers.trans hended.alike.ledgers.symm,
    hended'.alike.currentWorkspaces.trans hended.alike.currentWorkspaces.symm,
    hended'.alike.users.trans hended.alike.users.symm⟩
  · by_cases hkey : ∃ id, key = (user, personal user, id)
    · obtain ⟨id, rfl⟩ := hkey
      exact (hended'.rows id).trans (hended.rows id).symm
    · have hne : ∀ id, key ≠ (user, personal user, id) := fun id heq => hkey ⟨id, heq⟩
      exact (hended'.alike.elsewhere key hne).trans (hended.alike.elsewhere key hne).symm
  · by_cases hkey : key = (user, personal user)
    · subst hkey
      exact hended'.current.trans hended.current.symm
    · rw [hended'.alike.currents key hkey, hended.alike.currents key hkey]

theorem Migrated.promised {nowMs : ℕ} (h : Migrated packages user d₀ db nowMs d)
    (hkeyed : Keyed user db) : Promised packages user d₀ db d := by
  obtain ⟨db', hfile, hversion, hended⟩ := h.database
  refine ⟨h.v1, db', hfile, hversion, fun hlow c hc hskip => ?_, fun id c hrow => ?_,
    fun l hl hne => ⟨fun c _ hholds hfirst hown => ?_, fun hin => ?_⟩⟩
  · rw [hended.documents, docEnd, if_neg (Nat.not_le_of_lt hlow)]
    cases hget : db.store.getDocument c.doc with
    | some record => exact ⟨_, rfl, fun hnone => nomatch hnone⟩
    | none =>
      dsimp only
      rw [if_neg hskip]
      cases hfind : db.commits.find? fun d => d.doc = c.doc with
      | none => exact absurd (decide_eq_true rfl) (List.find?_eq_none.mp hfind c hc)
      | some first =>
        refine ⟨_, rfl, fun _ p hp hid => ?_⟩
        have hfound := List.find?_some hfind
        have hdoc : first.doc = c.doc := of_decide_eq_true hfound
        cases hpackage : byLegacyId packages first.doc with
        | none =>
          rw [byLegacyId, List.find?_eq_none] at hpackage
          exact absurd (decide_eq_true (hid.trans hdoc.symm))
            (hpackage p (List.mem_reverse.mpr hp))
        | some q =>
          have hq := List.find?_some hpackage
          have hqid : legacyId q.id = first.doc := of_decide_eq_true hq
          refine ⟨q, List.mem_reverse.mp (List.mem_of_find?_eq_some hpackage), hqid.trans hdoc, ?_⟩
          rw [recordOf, hpackage]
  · rw [hended.rows] at hrow
    exact rowEnd_id hkeyed hrow
  · rw [hended.rows, hl, rowEnd_some hne]
    have hnone : (row user db c.id).filter (fun c => !placeholder c) = none := by
      cases hrow : row user db c.id with
      | none => rfl
      | some own =>
        rw [Option.filter_some, hown own hrow]
        rfl
    rw [hnone, hfirst]
    dsimp only
    rw [Option.filter_some, if_pos hholds]
  · have hend : currentEnd user (some l) db nowMs =
        chosen l (merged (heldOf user db nowMs) l) := if_neg hne
    rw [hended.current, hl, hend, chosen, if_pos]
    -- The id stands for a chat of the file, or for one that was there.
    obtain ⟨c, hc, hid⟩ := List.mem_map.mp hin
    cases hchat : chatOf l (row user db l.current) l.current with
    | none =>
      rw [chatOf] at hchat
      split at hchat
      · cases hchat
      · exact absurd (decide_eq_true hid) (List.find?_eq_none.mp hchat c hc)
    | some d =>
      have hdid : d.id = l.current := by
        rw [chatOf] at hchat
        split at hchat
        · next own hown =>
          cases hchat
          exact hkeyed _ _ (Option.filter_eq_some_iff.mp hown).1
        · have hfound := List.find?_some hchat
          exact of_decide_eq_true hfound
      refine List.mem_map.mpr ⟨d, (mem_merged hkeyed).mpr ?_, hdid⟩
      rw [hdid]
      exact hchat

end Kills

/-- **A migration can be interrupted**: after starts that were killed where it is allowed, a start
that is not ends in the database of a migration that was never interrupted. -/
theorem migration_repeats {packages : List Package} {user : UserId} {d₀ : Disk} {db : Database}
    {kills : List (ℕ × ℕ)} (hsource : Source d₀ db) (hlow : db.version < schemaVersion)
    (hkeyed : Keyed user db)
    (h : ∀ before kill after, kills = before ++ kill :: after →
      Meets packages user d₀ (killedEach packages user d₀ before) kill) (nowMs : ℕ) :
    Same user (started packages user nowMs d₀)
        (started packages user nowMs (killedEach packages user d₀ kills)) ∧
      Promised packages user d₀ db
        (started packages user nowMs (killedEach packages user d₀ kills)) := by
  have hfirst : Migrated packages user d₀ db nowMs (started packages user nowMs d₀) := by
    obtain ⟨hfile, hwritable⟩ | ⟨hfile, readOnly, hv1⟩ := hsource
    · have hready : d₀ = copiedTo d₀ db := by
        rw [copiedTo, ← hfile, ← hwritable]
      have hphase := phase_copied packages user d₀ db
      rw [← hready] at hphase
      exact hphase.started hlow hkeyed nowMs
    · rw [started_copy hfile hv1]
      exact (phase_copied _ _ d₀ db).started hlow hkeyed nowMs
  have hlast : Migrated packages user d₀ db nowMs
      (started packages user nowMs (killedEach packages user d₀ kills)) := by
    obtain heq | hphase := phase_killedEach hsource hlow hkeyed h
    · rw [heq]
      exact hfirst
    · exact hphase.started hlow hkeyed nowMs
  exact ⟨hfirst.same hlast, hlast.promised hkeyed⟩

/-- A commit of the lock, and a chat with a message. -/
def lockCommit : Commit :=
  ⟨"1", none, lockDoc, "", "", .null, "", "", .user, 1, none⟩

def oldChat : Conversation :=
  ⟨"c_1_1", "Board", 1, 1, [⟨.user, "Hello", [], false, "", none, []⟩]⟩

/-- A data directory of version 1. -/
def oldDisk : Disk :=
  ⟨some (⟨.empty, [lockCommit], 0⟩, false), none, false, some ⟨"c_1_1", [oldChat]⟩, none⟩

theorem keyed_empty (user : UserId) (commits : List Commit) (version : ℕ) :
    Keyed user ⟨.empty, commits, version⟩ := by
  intro id c h
  cases h

/-- Killed once the copy is taken and the chats are loaded. -/
theorem migration_repeats_loaded :
    Same "ana" (started [] "ana" 7 oldDisk) (started [] "ana" 7 (killedEach [] "ana" oldDisk [(5, 5)])) ∧
      Promised [] "ana" oldDisk ⟨.empty, [lockCommit], 0⟩
        (started [] "ana" 7 (killedEach [] "ana" oldDisk [(5, 5)])) := by
  refine migration_repeats (.inr ⟨rfl, false, rfl⟩) (by decide) (keyed_empty _ _ _)
    (fun before kill after hsplit => ?_) 7
  cases before with
  | nil =>
    cases hsplit
    refine ⟨fun _ => .inr (.inl (by decide)), fun hrename => ?_⟩
    have hwrites : (startWrites [] "ana" 5 oldDisk).take 5 =
        [.copyBegun, .copyTorn, .copied, .writable, .inDb (.load 5)] := rfl
    change Write.renameLegacy ∈ (startWrites [] "ana" 5 oldDisk).take 5 at hrename
    rw [hwrites] at hrename
    simp at hrename
  | cons kill' before =>
    have hlength := congrArg List.length hsplit
    simp at hlength

/-- How many commits a database has. -/
def commitsOf : Option DbFile → ℕ
  | some (.whole db) => db.commits.length
  | _ => 0

/-- Killed when the copy has its name and nothing else: the next start makes a new database. -/
theorem history_lost : ¬Same "ana" (started [] "ana" 7 oldDisk)
    (started [] "ana" 7 (killedEach [] "ana" oldDisk [(5, 1)])) := by
  intro h
  obtain ⟨db, db', hfile, hfile', -, hcommits, -⟩ := h.database
  have hone : commitsOf (started [] "ana" 7 oldDisk).file = 1 := by decide +kernel
  have hnone : commitsOf (started [] "ana" 7 (killedEach [] "ana" oldDisk [(5, 1)])).file = 0 := by
    decide +kernel
  rw [hfile] at hone
  rw [hfile'] at hnone
  change db.commits.length = 1 at hone
  change db'.commits.length = 0 at hnone
  rw [hcommits, hone] at hnone
  cases hnone

end Migration

end LocalSpace
