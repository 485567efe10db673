import LocalSpace.Answers

/-!
# Requests

`Core::handle_as` and `handle_inner` (`lib.rs`), request by request. Requests whose handling
reads and changes nothing of the state modelled here, the models and their engine, the
catalog, the features and preferences and the sessions, are `Request.other`; what remains of
them here is who may make them.
-/

namespace LocalSpace

variable {H : Host}

/-- Who holds a level, as a request says it. -/
abbrev Member := Principal × Level

inductive Request where
  | getEnvironment
  | setNetworkMode (mode : NetworkMode)
  | setFocus (harness : Option HarnessId)
  | setPinned (harness : HarnessId) (pinned : Bool)
  | setHarnessEnabled (harness : HarnessId) (enabled : Bool)
  | installHarness (path : String)
  | approveInstall (harness : HarnessId) (token : String)
  | uninstallHarness (harness : HarnessId)
  | sendMessage (text : String) (conversation : Option ConversationId)
      (attachments : List String)
  | cancelTurn (conversation : Option ConversationId)
  | listTurns
  | continueAnswer (conversation : Option ConversationId)
  | getTranscript
  | listConversations
  | newConversation
  | selectConversation (id : ConversationId)
  | deleteConversation (id : ConversationId)
  | renameConversation (id : ConversationId) (title : String)
  | approve (id : String) (granted : Bool)
  | callTool (tool : String) (params : Json)
  | getWidgetView (harness : HarnessId) (view : String)
  | widgetEvent (harness : HarnessId) (view : String) (event : Json)
  | harnessEvent (harness : HarnessId) (view : String) (payload : Bytes)
  | presence (board : Option HarnessId) (peer : String)
  | openDoc (harness : HarnessId)
  | getDocJson (harness : HarnessId)
  | produceArtifact (e : Export)
  | listDocuments
  | getDocBlob (doc : DocId)
  | writeDoc (harness : HarnessId) (view : String) (doc : Json) (commit : Bool)
  | docSync (doc : DocId) (peer : String) (message : Bytes)
  | docSyncEnd (doc : DocId) (peer : String)
  | getHistory (limit : Nat)
  | undo
  | redo
  | dropRun (run : String)
  | previewContext (budget : Nat)
  | getActiveSet
  | getTask
  | getLock
  | createUser (email : String) (roles : List UserRole)
  | setUserRoles (user : UserId) (roles : List UserRole)
  | disableUser (user : UserId) (disabled : Bool)
  | listWorkspaces
  | createWorkspace (name : String)
  | setMember (workspace : WorkspaceId) (principal : Principal) (level : Level)
  | removeMember (workspace : WorkspaceId) (principal : Principal)
  | setAgentWrites (workspace : WorkspaceId) (mode : AgentWrites)
  | selectWorkspace (workspace : WorkspaceId) (reason : Option String)
  | setDocumentAccess (doc : DocId) (members : Option (List Member))
  | findCapability (need : String)
  | runEvals (harness : HarnessId)
  /-- A request that touches nothing modelled here, with the audit event a refusal of it is
  recorded under, where only an administrator makes it. -/
  | other (adminOnly : Option String)

structure WorkspaceInfo where
  id : WorkspaceId
  name : String
  personalTo : Option UserId
  members : List Member
  agentWrites : AgentWrites
  mine : Option Level
  current : Bool

structure ConversationSummary where
  id : ConversationId
  title : String
  createdMs : Nat
  updatedMs : Nat
  messages : Nat

inductive Response where
  | ok
  | error (message : String)
  | environment (environment : EnvironmentState)
  | transcript (messages : List ChatMessage)
  | attachmentRefused (refusal : String)
  | turns (list : List (ConversationId × TurnState))
  | conversations (list : List ConversationSummary) (current : ConversationId)
  | toolResult (outcome : ToolOutcome)
  | widgetView (root : Json)
  | docOpened (doc : DocId) (snapshot : Bytes) (kind : DocKind)
  | docJson (harness : HarnessId) (doc : DocId) (json : Json)
  | artifact (artifact : Artifact)
  | documents (documents : List DocumentInfo)
  | docBlob (name mime : String) (bytes : Bytes)
  | history (commits : List Commit)
  | context (blocks : List ContextBlock)
  | active (set : ActiveSet)
  | task (task : Task)
  | lock (json : Json)
  | users (users : List UserRecord)
  | invited (user : UserId) (email : String)
  | workspaces (list : List WorkspaceInfo)
  | installPrompt (harness : HarnessId) (token : String) (diff : List String)
      (nativeReason : Option String)
  | capabilities (hits : List CapabilityHit)
  | evals (harness : HarnessId) (total : Nat)
  | other

/-- The requests only an administrator makes, with the audit event a refusal is recorded
under. -/
def adminOnly : Request → Option String
  | .setNetworkMode _ => some "network.mode"
  | .setHarnessEnabled .. => some "harness.enable"
  | .installHarness _ => some "harness.install"
  | .approveInstall .. => some "harness.install"
  | .uninstallHarness _ => some "harness.uninstall"
  | .previewContext _ => some "context.preview"
  | .runEvals _ => some "evals.run"
  | .other event => event
  | _ => none

/-! ### Who may -/

/-- The scope of an event about a workspace. -/
def workspaceScope (workspace : WorkspaceId) : Scope :=
  ⟨workspace, "", ""⟩

/-- Refuse unless the caller is an administrator; the refusal is audited. -/
def requireAdmin (event : String) : Program H (Option Response) := do
  if (← get).active.isAdmin then return none
  else
    auditOn "" event (.obj []) "denied"
    return some (.error "Only an administrator can do that.")

/-- Refuse unless the caller owns the workspace or is an administrator; a personal workspace
takes no members at all. -/
def requireWorkspaceOwner (workspace : WorkspaceId) (event : String) :
    Program H (Option Response) := do
  let c ← get
  match c.access.workspace workspace with
  | none => return some (.error s!"no workspace `{workspace}`")
  | some ws =>
    if ws.personalTo.isSome then
      return some (.error ("A personal workspace is its owner's alone; " ++
        "share from a workspace an administrator made."))
    else if ws.levelOf c.identity = some .owner ∨ c.active.isAdmin then return none
    else
      auditAppend (workspaceScope workspace) event (.obj []) "denied"
      return some (.error "Only the workspace's owner or an administrator can do that.")

namespace Core

/-- The workspaces as the caller sees them: theirs, with their level; every one for an
administrator. -/
def workspaceInfos (c : Core H) : List WorkspaceInfo :=
  let infos := c.access.workspaces.entries.filterMap fun e =>
    let ws := e.2
    let mine := ws.levelOf c.identity
    if mine.isNone && !c.active.isAdmin then none
    else some {
      id := ws.id
      name := ws.name
      personalTo := ws.personalTo
      members := ws.defaultAcl.entries
      agentWrites := ws.agentWrites
      mine := mine
      current := ws.id = c.mine.workspace : WorkspaceInfo }
  infos.insertionSort fun a b =>
    (a.personalTo.isSome && !b.personalTo.isSome) ||
      (a.personalTo.isSome = b.personalTo.isSome && a.name ≤ b.name)

/-- Newest first; a chat is listed once its first message is sent. -/
def summaries (c : Core H) : List ConversationSummary :=
  ((c.mine.conversations.conversations.filter fun v => !v.messages.isEmpty).map fun v =>
      { id := v.id
        title := v.title
        createdMs := v.createdMs
        updatedMs := v.updatedMs
        messages := v.messages.countP fun m => m.role ≠ .tool : ConversationSummary }).insertionSort
    fun a b => b.updatedMs < a.updatedMs ∨
      (a.updatedMs = b.updatedMs ∧ b.createdMs ≤ a.createdMs)

def conversationsResponse (c : Core H) : Response :=
  .conversations c.summaries c.mine.conversations.current

/-- What an entry of the agent's answers its request with. -/
def agentResponse (c : Core H) : AgentReply → Response
  | .transcript => .transcript c.mine.transcript
  | .refused message => .error message
  | .attachmentRefused refusal => .attachmentRefused refusal
  | .done => .ok

/-- The caller's chats whose answers are being written, or wait. -/
def turnList (c : Core H) : List (ConversationId × TurnState) :=
  (c.turns.filter fun t => t.caller.user = c.active.user).map fun t => (t.conversation, t.state)

end Core

/-! ### Focus, chats, approvals -/

def setFocus (harness : Option HarnessId) : Program H Response := do
  modify fun c => c.own fun u => { u with focus := harness }
  emitEnvironment
  return .ok

def setPinned (harness : HarnessId) (pinned : Bool) : Program H Response := do
  modify fun c => c.own fun u => { u with
    pinned := u.pinned.filter (fun p => p ≠ harness) ++ if pinned then [harness] else [] }
  emitEnvironment
  return .ok

/-- The chat on screen, as the working set now has it. -/
def showCurrent : Program H Unit := do
  modify fun c => c.own fun u => { u with
    transcript := (u.conversations.currentChat.map Conversation.messages).getD [] }
  emit (.conversationChanged (← get).mine.conversations.current)

def newConversation : Program H Response := do
  recordConversation
  let now ← nowMs
  modify fun c =>
    let r := c.mine.conversations.start c.store now
    { c.own (fun u => { u with conversations := r.1, transcript := [] }) with store := r.2 }
  emit (.conversationChanged (← get).mine.conversations.current)
  return (← get).conversationsResponse

def selectConversation (id : ConversationId) : Program H Response := do
  recordConversation
  let c ← get
  let r := c.mine.conversations.select c.store id
  match r.1 with
  | none => return .error s!"no conversation `{id}`"
  | some chat =>
    modify fun c =>
      { c.own (fun u => { u with conversations := r.2.1, transcript := chat.messages }) with
        store := r.2.2 }
    emit (.conversationChanged id)
    return (← get).conversationsResponse

/-- Delete a chat; its answer, being written or waiting, ends first. -/
def deleteConversation (id : ConversationId) : Program H Response := do
  forget id
  recordConversation
  let now ← nowMs
  let c ← get
  let r := c.mine.conversations.delete c.store id now
  modify fun c => { c.own (fun u => { u with conversations := r.2.1 }) with store := r.2.2 }
  if r.1 then
    showCurrent
    return (← get).conversationsResponse
  else return .error s!"no conversation `{id}`"

def renameConversation (id : ConversationId) (title : String) : Program H Response := do
  let c ← get
  let r := c.mine.conversations.rename c.store id title
  modify fun c => { c.own (fun u => { u with conversations := r.2.1 }) with store := r.2.2 }
  if r.1 then return (← get).conversationsResponse
  else return .error s!"no conversation `{id}`"

/-- The approval of an egress opens its domain. -/
def approveEgress (id : String) (params : Json) : Program H Unit := do
  if id.startsWith "egress:" then
    match ((params.get? "url").bind Json.asStr).bind H.hostOf with
    | some domain => modify fun c => { c with gateway := H.approveDomain c.gateway domain }
    | none => return

/-- The chat an approved call's outcome is told in. -/
def Core.chatOfTurn (c : Core H) (turn : Option Nat) : ConversationId :=
  ((c.waitingTurn turn).map Turn.conversation).getD c.mine.conversations.current

/-- The person answers an approval: the call is made as them, or it is declined. -/
def approve (id : String) (granted : Bool) : Program H Response := do
  match (← get).mine.pending.lookup id with
  | none => return .error s!"no approval `{id}` is outstanding"
  | some p =>
    modify fun c => c.own fun u => { u with pending := u.pending.erase id }
    if !granted then
      if p.resumeAgent then declined p.turn p.tool
      else notice .info "declined"
      return .ok
    else
      approveEgress id p.params
      let outcome ← callTool p.tool p.params .user
      emit (.toolCallFinished ((← get).chatOfTurn p.turn) id p.tool outcome)
      if p.resumeAgent then resume p.turn p.tool p.params outcome
      return .toolResult outcome

/-! ### Documents -/

def getWidgetView (harness : HarnessId) (view : String) : Program H Response := do
  let doc ← docFor harness
  let json := (doc.map (← get).docs.json).getD .null
  if ((← get).registry.get harness).isNone then
    return .error s!"no harness `{harness}`"
  else
    match ← ensureRuntime harness with
    | .error e => return .error s!"`{harness}` could not start: {e}"
    | .ok _ =>
      match H.view (← nextRead) harness view json with
      | .error e => return .error e
      | .ok tree =>
        match H.widgets tree with
        | .ok root => return .widgetView root
        | .error e =>
          return .error s!"`{harness}` returned a widget tree Core cannot read: {e}"

/-- A read-only account writing a document through a surface. -/
def refuseReadOnlyWrite (doc : DocId) : Program H Response := do
  auditOn doc "document.write" (.obj [("why", .str "read-only account")]) "denied"
  return .error readOnlyReason

/-- Commit a change a surface made to a document. -/
def commitSurface (doc : DocId) (harness : HarnessId) (tool : String) (changes : Changes) :
    Program H Unit := do
  let _ ← commitDoc {
    doc := doc
    harness := harness
    tool := tool
    params := .null
    bytes := (← get).docs.snapshot doc
    diffSummary := changes.summary
    author := .user
    run := none }

/-- A document a surface's logic hands back: a write by the caller, checked like any other;
a refusal, if it is one. -/
def writeFromSurface (harness : HarnessId) (view : String) (doc : DocId) (next : Json) :
    Program H (Option Response) := do
  let c ← get
  if c.active.isViewer then return some (← refuseReadOnlyWrite doc)
  else
    match c.access.check c.identity doc .edit with
    | .error denied =>
      auditOn doc "document.write" (.obj [("why", .str denied.text)]) "denied"
      return some (.error denied.text)
    | .ok _ =>
      match ← applyJson doc next with
      | .error _ => return none
      | .ok changes =>
        if !changes.isEmpty then
          commitSurface doc harness s!"surface:{view}" changes
          docChanged doc
        return none

def harnessEvent (harness : HarnessId) (view : String) (payload : Bytes) :
    Program H Response := do
  if 64 * 1024 < payload.length then
    return .error "a surface message may not exceed 64 KB"
  else
    match ← docFor harness with
    | none => return .error s!"no harness `{harness}`"
    | some doc =>
      let c ← get
      match c.access.check c.identity doc .view with
      | .error denied => return .error denied.text
      | .ok _ =>
        let json := c.docs.json doc
        match ← runLogic harness fun n => H.event n harness view payload json with
        | .error e => return .error e
        | .ok (.error e) => return .error e
        | .ok (.ok (reply, next)) =>
          let refused ← match next with
            | some next => writeFromSurface harness view doc next
            | none => pure none
          match refused with
          | some refused => return refused
          | none =>
            if !reply.isEmpty then emit (.harnessMessage harness view reply)
            return .ok

/-- A window's name: one to sixty-four letters or digits. -/
def windowNameOk (peer : String) : Bool :=
  !peer.isEmpty && peer.utf8ByteSize ≤ 64 && peer.toList.all Char.isAlphanum

def presence (board : Option HarnessId) (peer : String) : Program H Response := do
  if !windowNameOk peer then
    return .error "a window is named by one to sixty-four letters or digits"
  else
    match board with
    | none => return .ok
    | some harness =>
      match ← docFor harness with
      | none => return .error s!"no harness `{harness}`"
      | some doc =>
        let c ← get
        match c.access.check c.identity doc .view with
        | .error denied => return .error denied.text
        | .ok _ => return .ok

def openDoc (harness : HarnessId) : Program H Response := do
  match (← get).registry.get harness with
  | none => return .error s!"no harness `{harness}`"
  | some h =>
    match ← docFor harness with
    | none => return .error s!"`{harness}` has no document"
    | some doc =>
      let c ← get
      match c.access.check c.identity doc .view with
      | .error denied => return .error denied.text
      | .ok _ => return .docOpened doc (c.docs.snapshot doc) h.docKind

def getDocJson (harness : HarnessId) : Program H Response := do
  match ← docFor harness with
  | none => return .error s!"no harness `{harness}`"
  | some doc =>
    let c ← get
    match c.access.check c.identity doc .view with
    | .error denied => return .error denied.text
    | .ok _ => return .docJson harness doc (c.docs.json doc)

/-- A file document at its head: its record and its bytes. -/
def Core.docBlob (c : Core H) (doc : DocId) : Except String (DocumentRecord × Bytes) :=
  match c.access.check c.identity doc .view with
  | .error denied => .error denied.text
  | .ok _ =>
    match (c.store.getDocument doc).filter fun r => r.harness.isNone with
    | none => .error s!"`{doc}` is not a file"
    | some record =>
      match c.dag.head doc with
      | none => .error s!"`{doc}` has no content; its export was undone"
      | some head =>
        match c.dag.getCommit head with
        | none => .error s!"commit `{head}` is missing from the history"
        | some commit =>
          match c.dag.getBlob commit.docHash with
          | none => .error s!"the content of `{doc}` is missing from the blob store"
          | some bytes => .ok (record, bytes)

def getDocBlob (doc : DocId) : Program H Response := do
  match (← get).docBlob doc with
  | .error message => return .error message
  | .ok (record, bytes) =>
    auditOn doc "document.read"
      (.obj [("bytes", .num bytes.length 0), ("name", .str record.title)]) "ok"
    return .docBlob record.title record.mime bytes

def writeDoc (harness : HarnessId) (view : String) (next : Json) (commit : Bool) :
    Program H Response := do
  match (← get).registry.get harness with
  | none => return .error s!"no harness `{harness}`"
  | some h =>
    if !h.views.contains view then return .error s!"`{harness}` has no view `{view}`"
    else
      match ← docFor harness with
      | none => return .error s!"`{harness}` has no document"
      | some doc =>
        let c ← get
        if c.active.isViewer then refuseReadOnlyWrite doc
        else
          match c.access.check c.identity doc .edit with
          | .error denied => return .error denied.text
          | .ok _ =>
            match ← applyJson doc next with
            | .error e => return .error s!"the document could not be applied: {e}"
            | .ok changes =>
              if !changes.isEmpty then
                if commit then commitSurface doc harness s!"surface:{view}" changes
                docChanged doc
              return .ok

/-- A replica's message, applied: whether the document changed. -/
def receiveSync (doc : DocId) (peer : String) (message : Bytes) :
    Program H (Except String Bool) := do
  let replica ← takeReplica doc peer
  let r := (← get).docs.receiveSync doc replica.state message
  modify fun c => { c with docs := r.2.2 }
  putReplica doc peer r.2.1
  return r.1

/-- A replica's sync message, from a caller who may edit the document. -/
@[grind =]
def docSync (doc : DocId) (peer : String) (message : Bytes) : Program H Response := do
  let c ← get
  if c.active.isViewer then refuseReadOnlyWrite doc
  else
    match c.access.check c.identity doc .edit with
    | .error denied => return .error denied.text
    | .ok _ =>
      let before := c.docs.json doc
      match ← receiveSync doc peer message with
      | .error e => return .error e
      | .ok changed =>
        if changed then
          let c ← get
          let harness := ((c.store.getDocument doc).bind DocumentRecord.harness).getD "core"
          commitSurface doc harness "surface:sync" (H.diffChanges before (c.docs.json doc))
          docChanged doc
        else syncReplica doc peer
        return .ok

/-- A replica that closed. -/
def docSyncEnd (doc : DocId) (peer : String) : Program H Response := do
  modify fun c =>
    let rest := (c.replicasOf doc).erase peer
    if rest.keys.isEmpty then { c with syncStates := c.syncStates.erase doc }
    else c.setReplicas doc rest
  return .ok

/-- The history of what the caller may see; the environment's lock when they administer
it. -/
def Core.historyFor (c : Core H) (limit : Nat) : List Commit :=
  ((c.dag.history (max (limit * 8) 200)).filter fun commit =>
    if commit.doc = lockDoc then c.active.isAdmin else c.may commit.doc .view).take limit

/-- A request's answer to something restored. -/
def revertResponse : Except String Unit → Response
  | .ok _ => .ok
  | .error e => .error e

@[grind =]
def undo : Program H Response := do
  let c ← get
  match c.undoableDoc with
  | none => return .error "nothing to undo"
  | some doc =>
    match c.dag.undo doc with
    | .error e => return .error e
    | .ok (revert, dag) =>
      modify fun c => { c with dag := dag }
      return revertResponse (← applyRevert revert)

@[grind =]
def redo : Program H Response := do
  let c ← get
  match c.undoableDoc with
  | none => return .error "nothing to redo"
  | some doc =>
    let r := c.dag.redo doc
    modify fun c => { c with dag := r.2 }
    match r.1 with
    | .error e => return .error e
    | .ok revert => return revertResponse (← applyRevert revert)

/-- The documents a run touched. -/
def Core.touchedBy (c : Core H) (run : String) : List DocId :=
  (c.dag.all.filter fun commit => commit.run = some run).map Commit.doc

/-- The first refusal among some documents' checks. -/
def Core.firstDenied (c : Core H) (need : Level) : List DocId → Option Denied
  | [] => none
  | doc :: rest =>
    match c.access.check c.identity doc need with
    | .error denied => some denied
    | .ok _ => firstDenied c need rest

/-- Drop a run: every document it touched goes back to before it. -/
@[grind =]
def dropRun (run : String) : Program H Response := do
  let c ← get
  if c.active.isViewer then return .error readOnlyReason
  else
    match c.firstDenied .edit (c.touchedBy run) with
    | some denied => return .error denied.text
    | none =>
      match c.dag.dropRun run with
      | .error e => return .error e
      | .ok (reverts, dag) =>
        modify fun c => { c with dag := dag }
        reverts.forM fun r => do
          let _ ← applyRevert r
        modify fun c => c.own fun u => { u with
          proposals := u.proposals.filter fun p => p.run ≠ run }
        return .ok

/-- The profile with another context budget. -/
def ModelProfile.withBudget (p : ModelProfile) (budget : Nat) : ModelProfile :=
  if budget = 0 then p
  else { p with
    contextBudgetTokens := budget
    focusedContextTokens := min budget (max p.focusedContextTokens (budget / 2)) }

def previewContext (budget : Nat) : Program H Response := do
  let saved := (← get).cfg.profile
  modify fun c => { c with cfg := { c.cfg with profile := saved.withBudget budget } }
  let blocks ← contextBlocks
  modify fun c => { c with cfg := { c.cfg with profile := saved } }
  return .context blocks

/-! ### Workspaces and accounts -/

def persistWorkspace (id : WorkspaceId) : Program H Unit :=
  modify fun c => match c.access.workspace id with
    | some ws => { c with store := c.store.putWorkspace ws }
    | none => c

/-- A change to one workspace, written through and audited. -/
def changeWorkspace (workspace : WorkspaceId) (event : String) (detail : Json)
    (change : Workspace → Workspace) : Program H Response := do
  modify fun c => { c with access := c.access.workspaceMut workspace change }
  persistWorkspace workspace
  auditAppend (workspaceScope workspace) event detail "ok"
  return .workspaces (← get).workspaceInfos

def principalJson : Principal → Json
  | .user u => .obj [("user", .str u)]
  | .group g => .obj [("group", .str g)]
  | .workspace => .str "workspace"

def createWorkspace (name : String) : Program H Response := do
  match ← requireAdmin "workspace.create" with
  | some refused => return refused
  | none =>
    let name := trim name
    if name = "" then return .error "Give the workspace a name."
    else
      let id := s!"ws_{H.uuid (← nextRead)}"
      let now ← nowMs
      modify fun c =>
        let ws := Workspace.sharedBy id name c.active.user now
        { c with store := c.store.putWorkspace ws, access := c.access.addWorkspace ws }
      auditAppend (workspaceScope id) "workspace.create"
        (.obj [("name", .str name), ("workspace", .str id)]) "ok"
      return .workspaces (← get).workspaceInfos

def setMember (workspace : WorkspaceId) (principal : Principal) (level : Level) :
    Program H Response := do
  match ← requireWorkspaceOwner workspace "workspace.member" with
  | some refused => return refused
  | none =>
    if principal = .workspace then
      return .error ("a workspace's members are people and groups; " ++
        "\"everyone in the workspace\" is not one of them")
    else
      changeWorkspace workspace "workspace.member"
        (.obj [("level", .str level.label), ("principal", principalJson principal)])
        fun ws => ws.setMember principal level

def removeMember (workspace : WorkspaceId) (principal : Principal) : Program H Response := do
  match ← requireWorkspaceOwner workspace "workspace.member" with
  | some refused => return refused
  | none =>
    if ((← get).access.workspace workspace).any fun ws => (ws.removeMember principal).1 then
      changeWorkspace workspace "workspace.member"
        (.obj [("level", .null), ("principal", principalJson principal)])
        fun ws => (ws.removeMember principal).2
    else return .error "That member is not in the workspace."

def setAgentWrites (workspace : WorkspaceId) (mode : AgentWrites) : Program H Response := do
  match ← requireWorkspaceOwner workspace "workspace.agent_writes" with
  | some refused => return refused
  | none =>
    let label := match mode with
      | .direct => "direct"
      | .proposal => "proposal"
    changeWorkspace workspace "workspace.agent_writes" (.obj [("mode", .str label)])
      fun ws => { ws with agentWrites := mode }

/-- The way in to a workspace: a member goes; an administrator who is not one goes with a
reason, audited as break-glass. A refusal, if it is one. -/
def enterWorkspace (ws : Workspace) (reason : Option String) : Program H (Option Response) := do
  let c ← get
  if (ws.levelOf c.identity).isSome then
    modify fun c => c.own fun u => { u with breakGlass := none }
    return none
  else
    let reason := (reason.map trim).filter fun r => r ≠ ""
    if c.active.isAdmin then
      match reason with
      | some reason =>
        auditAppend (workspaceScope ws.id) "workspace.break_glass"
          (.obj [("reason", .str reason)]) "ok"
        modify fun c => c.own fun u => { u with breakGlass := some ⟨ws.id, reason⟩ }
        return none
      | none =>
        return some (.error ("You are not a member of that workspace. " ++
          "As an administrator you can open it with a reason, which is kept."))
    else
      auditAppend (workspaceScope ws.id) "workspace.select" (.obj []) "denied"
      return some (.error "You are not a member of that workspace.")

/-- The caller's chats and ledger become the workspace's. -/
def moveTo (workspace : WorkspaceId) : Program H Unit := do
  recordConversation
  modify fun c => c.own fun u => { u with workspace := workspace }
  let now ← nowMs
  modify fun c =>
    let user := c.active.user
    let r := Chats.load c.store user workspace now
    { c.own (fun u => { u with
        conversations := r.1
        transcript := (r.1.currentChat.map Conversation.messages).getD []
        task := r.2.ledger user workspace }) with
      store := r.2.setCurrentWorkspace user workspace }
  auditAppend (workspaceScope workspace) "workspace.select" (.obj []) "ok"
  emit (.conversationChanged (← get).mine.conversations.current)
  emitTask

/-- Go to a workspace. -/
def selectWorkspace (workspace : WorkspaceId) (reason : Option String) :
    Program H Response := do
  match (← get).access.workspace workspace with
  | none => return .error "There is no such workspace."
  | some ws =>
    match ← enterWorkspace ws reason with
    | some refused => return refused
    | none =>
      let leaving := (← get).mine.workspace
      if leaving ≠ ws.id then
        stopOnLeaving leaving
        moveTo ws.id
      emitEnvironment
      return .environment (← get).environment

/-- Tighten a document, or clear the tightening: its owner, or an administrator. -/
def setDocumentAccess (doc : DocId) (members : Option (List Member)) : Program H Response := do
  let c ← get
  if !c.may doc .owner && !c.active.isAdmin then
    auditOn doc "document.access" (.obj []) "denied"
    return .error
      "Only the document's owner or an administrator can change who may open it."
  else
    let acl := members.map Acl.mk
    match c.access.setDocumentAcl doc acl with
    | .error message => return .error message
    | .ok access =>
      modify fun c => { c with
        access := access
        store := match c.store.getDocument doc with
          | some record => c.store.putDocument doc { record with acl := acl }
          | none => c.store }
      auditOn doc "document.access" (.obj []) "ok"
      return .ok

/-- A change to an account an administrator makes, where there is one by that id. -/
def changeAccount (user : UserId) (event : String) (detail : Json)
    (change : UserRecord → UserRecord) : Program H Response := do
  match (← get).store.users.lookup user with
  | none => return .error "no such user"
  | some record =>
    modify fun c => { c with
      store := { c.store with users := c.store.users.insert user (change record) } }
    auditOn "" event detail "ok"
    return .users ((← get).store.users.entries.map fun e => e.2)

def noRoles : String :=
  "an account has at least one role: administrator, member, or can view only"

def rolesJson (roles : List UserRole) : Json :=
  .arr (roles.map fun r => .str r.label)

/-- `normalise_email`: trimmed, its ASCII letters lower-cased. -/
def normaliseEmail (email : String) : String :=
  (trim email).toLower

/-- A new account, under a fresh id. -/
def addAccount (email : String) (roles : List UserRole) :
    Program H (Except String UserRecord) := do
  let email := normaliseEmail email
  if email = "" ∨ !email.toList.contains '@' then
    return .error s!"`{email}` is not an email address"
  else if (← get).store.users.entries.any fun e => e.2.email = email then
    return .error s!"there is already an account for {email}"
  else
    let user : UserRecord := ⟨s!"u_{H.uuid (← nextRead)}", email, roles, false⟩
    modify fun c => { c with
      store := { c.store with users := c.store.users.insert user.id user } }
    return .ok user

def createUser (email : String) (roles : List UserRole) : Program H Response := do
  match ← requireAdmin "user.create" with
  | some refused => return refused
  | none =>
    if roles.isEmpty then return .error noRoles
    else
      match ← addAccount email roles with
      | .error e => return .error e
      | .ok user =>
        auditOn "" "user.create"
          (.obj [("email", .str user.email), ("roles", rolesJson roles), ("user", .str user.id)])
          "ok"
        return .invited user.id user.email

def setUserRoles (user : UserId) (roles : List UserRole) : Program H Response := do
  match ← requireAdmin "user.roles" with
  | some refused => return refused
  | none =>
    if roles.isEmpty then return .error noRoles
    else
      changeAccount user "user.roles" (.obj [("roles", rolesJson roles), ("user", .str user)])
        fun u => { u with roles := roles }

def disableUser (user : UserId) (disabled : Bool) : Program H Response := do
  match ← requireAdmin "user.disable" with
  | some refused => return refused
  | none =>
    changeAccount user "user.disable"
      (.obj [("disabled", .bool disabled), ("user", .str user)])
      fun u => { u with disabled := disabled }

end LocalSpace
