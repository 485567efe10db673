import LocalSpace.Acl
import LocalSpace.Host

/-!
# The database's tables, and the chats of one user in one workspace

`store.rs` and `conversations.rs`. Rows of a user in a workspace have the two and the row's
own name as their key. `Chats` is the working set of chats Core holds of the active user;
each operation on it writes through to the database and gives it back.
-/

namespace LocalSpace

structure DocumentRecord where
  title : String
  kind : DocKind
  mime : String
  bytes : Nat
  hash : String
  source : DocumentSource
  createdMs : Nat
  workspace : WorkspaceId
  /-- The harness whose document this is, for one a harness edits. -/
  harness : Option HarnessId
  createdBy : UserId
  /-- Set when the document was tightened below its workspace. -/
  acl : Option Acl

structure Conversation where
  id : ConversationId
  title : String
  createdMs : Nat
  updatedMs : Nat
  messages : List ChatMessage

structure UserRecord where
  id : UserId
  email : String
  roles : List UserRole
  disabled : Bool

/-- The key of a row of a user in a workspace. -/
abbrev Scoped := UserId × WorkspaceId × String

structure Store where
  workspaces : Table WorkspaceId Workspace
  documents : Table DocId DocumentRecord
  conversations : Table Scoped Conversation
  currentConversations : Table (UserId × WorkspaceId) ConversationId
  ledgers : Table (UserId × WorkspaceId) Task
  currentWorkspaces : Table UserId WorkspaceId
  users : Table UserId UserRecord

namespace Store

@[grind =]
def empty : Store :=
  ⟨∅, ∅, ∅, ∅, ∅, ∅, ∅⟩

def putWorkspace (db : Store) (ws : Workspace) : Store :=
  { db with workspaces := db.workspaces.insert ws.id ws }

def putDocument (db : Store) (id : DocId) (record : DocumentRecord) : Store :=
  { db with documents := db.documents.insert id record }

@[grind =]
def getDocument (db : Store) (id : DocId) : Option DocumentRecord :=
  db.documents.lookup id

/-- Every document. -/
def allDocuments (db : Store) : List (DocId × DocumentRecord) :=
  db.documents.entries.map fun e => (e.1, e.2)

/-- The chats of a user in a workspace. -/
def conversationsOf (db : Store) (user : UserId) (workspace : WorkspaceId) :
    List Conversation :=
  (db.conversations.entries.filter fun e => e.1.1 = user ∧ e.1.2.1 = workspace).map
    fun e => e.2

def putConversation (db : Store) (user : UserId) (workspace : WorkspaceId)
    (c : Conversation) : Store :=
  { db with conversations := db.conversations.insert (user, workspace, c.id) c }

def deleteConversation (db : Store) (user : UserId) (workspace : WorkspaceId)
    (id : ConversationId) : Store :=
  { db with conversations := db.conversations.erase (user, workspace, id) }

def setCurrentConversation (db : Store) (user : UserId) (workspace : WorkspaceId)
    (id : ConversationId) : Store :=
  { db with currentConversations := db.currentConversations.insert (user, workspace) id }

@[grind =]
def ledger (db : Store) (user : UserId) (workspace : WorkspaceId) : Task :=
  (db.ledgers.lookup (user, workspace)).getD {}

def putLedger (db : Store) (user : UserId) (workspace : WorkspaceId) (task : Task) : Store :=
  { db with ledgers := db.ledgers.insert (user, workspace) task }

def setCurrentWorkspace (db : Store) (user : UserId) (workspace : WorkspaceId) : Store :=
  { db with currentWorkspaces := db.currentWorkspaces.insert user workspace }

end Store

/-! ### The working set of chats -/

/-- `conversations::Store`: the chats of one user in one workspace, and the one on
screen. -/
structure Chats where
  current : ConversationId
  conversations : List Conversation
  user : UserId
  workspace : WorkspaceId

/-- A chat still called "New chat" takes its title from its first message. -/
@[grind =]
def Conversation.titled (H : Host) (c : Conversation) : Conversation :=
  if c.title = "New chat" then
    match c.messages.find? fun m => m.role = .user with
    | some first => { c with title := H.titleFrom first.content }
    | none => c
  else c

namespace Chats

variable (H : Host)

/-- A chat is written once it has a message. -/
def persist (s : Chats) (db : Store) (c : Conversation) : Store :=
  if c.messages.isEmpty then db else db.putConversation s.user s.workspace c

def setCurrent (s : Chats) (db : Store) (id : ConversationId) : Chats × Store :=
  ({ s with current := id }, db.setCurrentConversation s.user s.workspace id)

@[grind =]
def find (s : Chats) (id : ConversationId) : Option Conversation :=
  s.conversations.find? fun c => c.id = id

def currentChat (s : Chats) : Option Conversation :=
  s.find s.current

/-- One chat of the set, changed: the first by its id. -/
def replace (c : Conversation) : List Conversation → List Conversation
  | [] => []
  | d :: rest => if d.id = c.id then c :: rest else d :: replace c rest

/-- A new, empty chat, made current; or the current one, when it is still empty. -/
@[grind =]
def start (s : Chats) (db : Store) (nowMs : Nat) : Chats × Store :=
  if s.currentChat.any fun c => c.messages.isEmpty then (s, db)
  else
    let id := s!"c_{nowMs}_{s.conversations.length + 1}"
    let c : Conversation := ⟨id, "New chat", nowMs, nowMs, []⟩
    ({ s with conversations := s.conversations ++ [c] } : Chats).setCurrent db id

/-- The working set of `user` in `workspace`, with at least one chat. -/
@[grind =]
def load (db : Store) (user : UserId) (workspace : WorkspaceId) (nowMs : Nat) :
    Chats × Store :=
  let conversations := (db.conversationsOf user workspace).insertionSort fun a b =>
    a.createdMs < b.createdMs ∨ (a.createdMs = b.createdMs ∧ a.id ≤ b.id)
  let s : Chats :=
    ⟨(db.currentConversations.lookup (user, workspace)).getD "", conversations, user, workspace⟩
  let started := if s.conversations.isEmpty then s.start db nowMs else (s, db)
  if started.1.currentChat.isNone then
    started.1.setCurrent started.2 ((started.1.conversations.getLast?.map Conversation.id).getD "")
  else started

/-- Write the transcript back into the current chat. -/
@[grind =]
def record (s : Chats) (db : Store) (messages : List ChatMessage) (nowMs : Nat) :
    Chats × Store :=
  match s.currentChat with
  | none => (s, db)
  | some c =>
    let changed := c.messages.length ≠ messages.length
    let c' := ({ c with
      messages := messages
      updatedMs := if changed then nowMs else c.updatedMs } : Conversation).titled H
    ({ s with conversations := replace c' s.conversations }, s.persist db c')

/-- The messages of one chat of this set, current or not. -/
def messagesOf (s : Chats) (id : ConversationId) : Option (List ChatMessage) :=
  (s.find id).map Conversation.messages

/-- A chat with its messages changed, at a time. -/
def changedAt (c : Conversation) (nowMs : Nat)
    (change : List ChatMessage → List ChatMessage) : Conversation :=
  ({ c with messages := change c.messages, updatedMs := nowMs } : Conversation).titled H

/-- Change a chat of this set that is not the current one. -/
def update (s : Chats) (db : Store) (id : ConversationId) (nowMs : Nat)
    (change : List ChatMessage → List ChatMessage) : Chats × Store :=
  match s.find id with
  | none => (s, db)
  | some c =>
    let c' := changedAt H c nowMs change
    ({ s with conversations := replace c' s.conversations }, s.persist db c')

/-- Make a chat current: it, when there is one by that id. -/
def select (s : Chats) (db : Store) (id : ConversationId) :
    Option Conversation × Chats × Store :=
  match s.find id with
  | none => (none, s, db)
  | some c => (some c, s.setCurrent db id)

/-- The chat changed last, the latest such in the list. -/
def latest (conversations : List Conversation) : Option Conversation :=
  conversations.foldl (fun best c =>
    match best with
    | none => some c
    | some b => if b.updatedMs ≤ c.updatedMs then some c else some b) none

/-- Remove one. If it was current, the most recent other one becomes current, or a new one
if none is left. -/
@[grind =]
def delete (s : Chats) (db : Store) (id : ConversationId) (nowMs : Nat) :
    Bool × Chats × Store :=
  let rest := s.conversations.filter fun c => c.id ≠ id
  if rest.length = s.conversations.length then (false, s, db)
  else
    let s' : Chats := { s with conversations := rest }
    let db' := db.deleteConversation s.user s.workspace id
    if s.current = id then
      match latest rest with
      | some next => (true, s'.setCurrent db' next.id)
      | none => (true, s'.start db' nowMs)
    else (true, s', db')

def rename (s : Chats) (db : Store) (id : ConversationId) (title : String) :
    Bool × Chats × Store :=
  match s.find id with
  | none => (false, s, db)
  | some c =>
    let c' : Conversation := { c with title := ((trim title).take 80).toString }
    (true, { s with conversations := replace c' s.conversations }, s.persist db c')

end Chats

/-- The messages of a chat of a workspace its person is not in at the moment. -/
def Store.messagesElsewhere (db : Store) (user : UserId) (workspace : WorkspaceId)
    (id : ConversationId) : Option (List ChatMessage) :=
  ((db.conversationsOf user workspace).find? fun c => c.id = id).map Conversation.messages

/-- A change to such a chat, written through. -/
def Store.updateElsewhere (H : Host) (db : Store) (user : UserId) (workspace : WorkspaceId)
    (id : ConversationId) (nowMs : Nat) (change : List ChatMessage → List ChatMessage) : Store :=
  match (db.conversationsOf user workspace).find? fun c => c.id = id with
  | none => db
  | some c => db.putConversation user workspace (Chats.changedAt H c nowMs change)

end LocalSpace
