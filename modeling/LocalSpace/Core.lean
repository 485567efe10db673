import LocalSpace.Dag
import LocalSpace.Docs
import LocalSpace.Store

/-!
# Core's state

The state of `Core` (`lib.rs`) as a transport runs it: messages are handled one at a time,
a model step is read beside Core and comes back as a message (`reading`), and so does a
turn's next step (`posted`). What is one user's and not another's is a `UserState`: Core
carries the active caller's in `mine` and parks everyone else's in `users`; `activate`
swaps.

Four fields are kept for the properties alone and read by no operation: `events`, what was
sent so far, each event with the access table and the addressee's break-glass as they were;
`begins`, the turns in the order in which they began; `deeds`, what was done for turns; `reads`,
which numbers the readings of the clock and the other answers of the host.
-/

namespace LocalSpace

/-- Who a request is made as: the server's session, or the local user. -/
structure Caller where
  user : UserId
  session : String
  ip : String
  roles : List UserRole
  groups : List String
  deriving DecidableEq

namespace Caller

/-- The one user of a personal Core: the admin of their own machine. -/
def localUser (user : UserId) : Caller :=
  ⟨user, "local", "", [.admin], []⟩

/-- The server itself, signing users in and out. -/
@[grind =]
def system : Caller :=
  ⟨"system", "system", "", [], []⟩

def isSystem (c : Caller) : Bool :=
  c.user = "system" ∧ c.session = "system"

def isAdmin (c : Caller) : Bool :=
  c.roles.contains .admin

/-- A read-only account: holds `viewer` and nothing above it. -/
def isViewer (c : Caller) : Bool :=
  c.roles.contains .viewer && !c.roles.any fun r => r = .admin ∨ r = .member

def roleLabel (c : Caller) : String :=
  (c.roles.head?.map UserRole.label).getD "member"

end Caller

/-- A tool call held at a confirmation gate, waiting for the user. -/
structure Pending where
  tool : String
  params : Json
  /-- Continue the agent turn after the user answers. -/
  resumeAgent : Bool
  /-- The turn that asked, which waits for the answer. -/
  turn : Option Nat

/-- An agent run that wrote to a shared document and is awaiting apply/discard. -/
structure Proposal where
  run : String
  docs : List DocId
  summary : String
  by_ : UserId

/-- One answer: being written, or waiting to be. -/
structure Turn where
  id : Nat
  /-- Whose it is: everything it does, it does as them. -/
  caller : Caller
  workspace : WorkspaceId
  conversation : ConversationId
  state : TurnState
  /-- It has left the queue. -/
  begun : Bool
  /-- Tool calls it has made. -/
  steps : Nat
  /-- It was asked to stop. -/
  stop : Bool
  /-- The tool calls of the model's last reply that are still to run. -/
  calls : List ProposedCall
  /-- It carries on an answer that stopped. -/
  continuing : Bool
  refused : Option RefusedCall

namespace Turn

/-- Being written or waiting on its person. -/
def live (t : Turn) : Bool :=
  t.state = .writing ∨ t.state = .awaitsApproval

@[grind =]
def waiting (t : Turn) : Bool :=
  t.state = .waitsForAnotherChat ∨ t.state = .waitsForTheModel

end Turn

/-- What is one user's and not another's. -/
structure UserState where
  workspace : WorkspaceId
  breakGlass : Option BreakGlass
  focus : Option HarnessId
  pinned : List HarnessId
  touched : List HarnessId
  transcript : List ChatMessage
  pending : Table String Pending
  nextApproval : Nat
  pendingInstalls : Table String String
  proposals : List Proposal
  run : Option String
  task : Task
  conversations : Chats

/-- One replica's sync state, when Core last heard from it, and whose frame it is. -/
structure ReplicaSync (H : Host) where
  state : H.Sync
  seen : Nat
  user : UserId

inductive NoticeLevel where
  | info | warn | error

inductive ApprovalKind where
  | toolConfirm | egress | nativeTier

/-- The environment as the user it is sent to sees it. -/
structure EnvironmentState where
  user : UserId
  workspace : WorkspaceId
  focus : Option HarnessId
  pinned : List HarnessId
  harnesses : List (HarnessId × Bool)

inductive Event where
  | environmentChanged (environment : EnvironmentState)
  | environmentOutdated
  | traceLine (text : String)
  | notice (level : NoticeLevel) (text : String)
  | turnChanged (conversation : ConversationId) (state : TurnState)
  | assistantDelta (conversation : ConversationId) (text : String)
  | assistantDone (conversation : ConversationId)
  | toolCallStarted (conversation : ConversationId) (id tool : String) (params : Json)
  | toolCallFinished (conversation : ConversationId) (id tool : String) (outcome : ToolOutcome)
  | approvalRequest (id : String) (kind : ApprovalKind) (prompt : String)
  | approvalWithdrawn (id : String)
  | conversationChanged (current : ConversationId)
  | taskChanged (task : Task)
  | docChanged (doc : DocId)
  | docPatch (doc : DocId) (peer : String) (message : Bytes)
  | harnessMessage (harness : HarnessId) (view : String) (payload : Bytes)

/-- Whom an event is for: one user's clients, or everyone's. -/
inductive To where
  | user (u : UserId)
  | all

/-- An event as it was sent: the access table and the addressee's break-glass then. -/
structure Emitted where
  addressee : To
  event : Event
  access : AccessControl
  glass : Option BreakGlass

structure Actor where
  user : UserId
  session : String
  ip : String
  role : String
  breakGlass : Option String

structure Scope where
  workspace : WorkspaceId
  conversation : ConversationId
  document : DocId

structure AuditRecord where
  actor : Actor
  scope : Scope
  event : String
  detail : Json
  outcome : String

/-- A turn's work, come back through Core's queue. -/
inductive Internal where
  | replied (turn : Nat) (step : StepEnd)
  | goOn (turn : Nat)

@[grind =]
def Internal.turn : Internal → Nat
  | replied id _ => id
  | goOn id => id

/-- What was done for a turn. -/
inductive Deed where
  /-- The model was asked. -/
  | asked (turn : Nat)
  /-- A reply's tool calls, so many, were taken. -/
  | proposed (turn calls : Nat)
  /-- A tool call was made. -/
  | called (turn : Nat)
  deriving DecidableEq

/-- A model step being read: whose turn it is of, and what the model was asked. -/
structure Reading where
  turn : Nat
  prompt : Prompt

structure Config where
  user : UserId
  /-- An organisation's server, whose people sign in; else one person's own computer. -/
  organisation : Bool
  /-- How many answers the engine writes at once, its slots. -/
  slots : Nat
  /-- Harnesses this release sets aside. -/
  setAside : List HarnessId
  profile : ModelProfile

structure Core (H : Host) where
  cfg : Config
  registry : Registry
  docs : DocStore H
  store : Store
  dag : Dag
  gateway : H.Gateway
  audit : List AuditRecord
  access : AccessControl
  /-- What context providers said of a document's content: harness, content, budget. -/
  providers : List ((HarnessId × String × Nat) × ContextBlock)
  mine : UserState
  syncStates : Table DocId (Table String (ReplicaSync H))
  syncClock : Nat
  active : Caller
  users : Table UserId UserState
  evalsRunning : Bool
  /-- Answers being written or waiting, oldest first. -/
  turns : List Turn
  nextTurn : Nat
  /-- The turn whose tool call runs now. -/
  turnAtWork : Option Nat
  inline : List Internal
  runInline : Bool
  posted : List Internal
  reading : List Reading
  events : List Emitted
  begins : List Nat
  deeds : List Deed
  reads : Nat

/-- An operation of Core's. -/
abbrev Program (H : Host) := StateM (Core H)

/-- The most tool calls of one turn: `MAX_AGENT_STEPS`. -/
def maxAgentSteps : Nat := 24

/-- `MAX_REPLICAS_PER_DOC`. -/
def maxReplicasPerDoc : Nat := 32

/-- `MAX_ARTIFACT_BYTES`. -/
def maxArtifactBytes : Nat := 200 * 2 ^ 20

/-- `lock::LOCK_DOC`. -/
def lockDoc : DocId := "environment_lock"

def readOnlyReason : String :=
  "Your account can read here but not change anything."

namespace Core

variable {H : Host}

/-- The state of a user Core knows, active or parked. -/
@[grind =]
def stateOf (c : Core H) (u : UserId) : Option UserState :=
  if c.active.user = u then some c.mine else c.users.lookup u

/-- The break-glass a user is on. -/
def glassOf (c : Core H) (u : UserId) : Option BreakGlass :=
  (c.stateOf u).bind UserState.breakGlass

def identity (c : Core H) : Identity :=
  ⟨c.active.user, c.active.groups, c.mine.breakGlass⟩

def actor (c : Core H) : Actor where
  user := c.active.user
  session := c.active.session
  ip := c.active.ip
  role := c.active.roleLabel
  breakGlass := c.mine.breakGlass.map BreakGlass.reason

def scope (c : Core H) (document : DocId) : Scope :=
  ⟨c.mine.workspace, c.mine.conversations.current, document⟩

/-- Whether the active caller holds a level on a document. -/
@[grind =]
def may (c : Core H) (doc : DocId) (need : Level) : Bool :=
  c.access.allows c.identity doc need

def environment (c : Core H) : EnvironmentState where
  user := c.active.user
  workspace := c.mine.workspace
  focus := c.mine.focus
  pinned := c.mine.pinned
  harnesses := c.registry.iter.map fun h => (h.id, h.enabled)

/-- The break-glass of an event's addressee. -/
def glassFor (c : Core H) : To → Option BreakGlass
  | .user u => c.glassOf u
  | .all => none

/-- The log with one more event. -/
@[grind =]
def sent (c : Core H) (who : To) (ev : Event) : Core H :=
  { c with events := c.events ++ [⟨who, ev, c.access, c.glassFor who⟩] }

/-- One more deed. -/
def did (c : Core H) (deed : Deed) : Core H :=
  { c with deeds := c.deeds ++ [deed] }

/-- A change to what is the active user's own. -/
@[grind =]
def own (c : Core H) (change : UserState → UserState) : Core H :=
  { c with mine := change c.mine }

end Core

section Programs

variable {H : Host}

def emitTo (who : To) (ev : Event) : Program H Unit :=
  modify fun c => c.sent who ev

/-- To the user whose request this is. -/
@[grind =]
def emit (ev : Event) : Program H Unit := do
  emitTo (.user (← get).active.user) ev

/-- To everyone. -/
def emitAll (ev : Event) : Program H Unit :=
  emitTo .all ev

def trace (text : String) : Program H Unit :=
  emit (.traceLine text)

def notice (level : NoticeLevel) (text : String) : Program H Unit :=
  emit (.notice level text)

/-- The number of the host's next answer. -/
def nextRead : Program H Nat :=
  modifyGet fun c => (c.reads, { c with reads := c.reads + 1 })

/-- `dag::now_ms`. -/
@[grind =]
def nowMs : Program H Nat := do
  return H.clock (← nextRead)

/-- One more record of the audit, as the active caller. -/
def auditAppend (scope : Scope) (event : String) (detail : Json) (outcome : String) :
    Program H Unit :=
  modify fun c => { c with audit := c.audit ++ [⟨c.actor, scope, event, detail, outcome⟩] }

/-- The same, in the scope the caller is in. -/
def auditOn (document : DocId) (event : String) (detail : Json) (outcome : String) :
    Program H Unit := do
  auditAppend ((← get).scope document) event detail outcome

/-- The caller's own view, and a word to everyone else that theirs is stale. -/
def broadcastEnvironment : Program H Unit := do
  emit (.environmentChanged (← get).environment)
  emitAll .environmentOutdated

/-- The caller's own view alone. -/
def emitEnvironment : Program H Unit := do
  emit (.environmentChanged (← get).environment)

/-- A user seen for the first time: their personal workspace, their chats and ledger from
the database, and the first harness in focus. -/
def freshUserState (user : UserId) : Program H UserState := do
  let personal := Workspace.personalId user
  if ((← get).access.workspace personal).isNone then
    modify fun c => { c with
      store := c.store.putWorkspace (.personal user)
      access := c.access.addWorkspace (.personal user) }
  let c ← get
  let workspace := ((c.store.currentWorkspaces.lookup user).filter fun ws =>
    (c.access.levelIn ws ⟨user, [], none⟩).isSome).getD personal
  let now ← nowMs
  let loaded := Chats.load c.store user workspace now
  modify fun c => { c with store := loaded.2 }
  return {
    workspace := workspace
    breakGlass := none
    focus := c.registry.firstHarness
    pinned := []
    touched := []
    transcript := (loaded.1.currentChat.map Conversation.messages).getD []
    pending := ∅
    nextApproval := 1
    pendingInstalls := ∅
    proposals := []
    run := none
    task := c.store.ledger user workspace
    conversations := loaded.1 }

/-- The user's parked state, taken out, or a fresh one. -/
def takeState (user : UserId) : Program H UserState := do
  match (← get).users.lookup user with
  | some state =>
    modify fun c => { c with users := c.users.erase user }
    return state
  | none => freshUserState user

/-- Make `caller` the user the per-user fields belong to: the previous user's are parked,
theirs are brought in or made. -/
def activate (caller : Caller) : Program H Unit := do
  if (← get).active.user = caller.user then
    modify fun c => { c with active := caller }
  else
    let incoming ← takeState caller.user
    modify fun c => { c with
      users := c.users.insert c.active.user c.mine
      mine := incoming
      active := caller }

end Programs

end LocalSpace
