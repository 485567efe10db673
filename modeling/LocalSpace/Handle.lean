import LocalSpace.Requests

/-!
# Installing, evals, and the dispatch of requests

`Core::install_inner` with what it needs first, `evals::run`, and `handle_inner` and
`handle_as`. An install may first install what the package depends on, which may depend on
more: `installFor` goes so deep at most.
-/

namespace LocalSpace

variable {H : Host}

/-! ### Packages -/

/-- The kinds a package names that no installed types package declares. -/
def undeclaredKind (registry : Registry) (package : Installed) : Option String :=
  (package.produces ++ package.accepts).find? fun kind => (registry.typeDecl kind).isNone

/-- Every kind a package produces or accepts is declared by an installed types package. -/
def kindsDeclared (registry : Registry) (package : Installed) : Except String Unit :=
  match undeclaredKind registry package with
  | some kind =>
    .error (s!"`{kind}` is not declared by any installed types package; " ++
      "add the package that declares it to [dependencies]")
  | none => .ok ()

/-- One types package declares a kind. -/
def declaredOnce (registry : Registry) (package : Installed) : Except String Unit :=
  match package.types.findSome? fun t =>
      match registry.typeDecl t.1 with
      | some (other, _) => if other.id ≠ package.id then some (t.1, other.id) else none
      | none => none with
  | some (kind, other) =>
    .error s!"`{kind}` is already declared by `{other}`; one types package declares a kind"
  | none => .ok ()

/-- What an install came to. -/
inductive Installing where
  | done
  | prompt (harness : HarnessId) (token : String) (diff : List String)
      (nativeReason : Option String)

/-- A package whose dependencies are met, put in: it may first have to be approved. -/
def placePackage (path : String) (approved : Bool) (staged : Staged) :
    Program H (Except String Installing) := do
  let package := staged.package
  let installed := (← get).registry.get package.id
  let widening := staged.widening installed
  if !approved && installed.isSome && !widening.isEmpty then
    let token := s!"t{← nowMs}"
    modify fun c => c.own fun u => { u with
      pendingInstalls := u.pendingInstalls.insert token path }
    return .ok (.prompt package.id token widening staged.nativeReason)
  else
    match staged.nativeReason with
    | some reason =>
      emit (.approvalRequest s!"native:{package.id}" .nativeTier
        (s!"`{package.title}` runs as a native process outside the wasm sandbox. " ++
          s!"Its stated reason: {reason}"))
    | none => pure ()
    match ← ensureRuntime package.id with
    | .error e => return .error e
    | .ok _ =>
      modify fun c => { c with registry := c.registry.insert package }
      let doc ← docFor package.id
      auditOn (doc.getD "") "harness.install" (.obj [("harness", .str package.id)]) "ok"
      modify fun c => c.own fun u => { u with
        focus := if u.focus.isNone && package.isHarness then some package.id else u.focus }
      writeLock
      return .ok .done

/-- Install some packages in order, until one fails or asks for an approval. -/
def installAll (install : String → Program H (Except String Installing)) (dependent : HarnessId) :
    List String → Program H (Except String Unit)
  | [] => return .ok ()
  | path :: rest => do
    match ← install path with
    | .error e => return .error e
    | .ok (.prompt harness ..) =>
      return .error (s!"dependency `{harness}` widens capabilities; " ++
        s!"approve it before installing `{dependent}`")
    | .ok .done => installAll install dependent rest

/-- `install_inner`: dependencies first, then the package itself. -/
def installFor : Nat → String → Bool → Program H (Except String Installing)
  | 0, _, _ => return .error "the dependencies go too deep"
  | n + 1, path, approved => do
    match H.staged (← nextRead) path with
    | .error e => return .error e
    | .ok staged =>
      if (← get).setAside staged.package.id then
        return .error s!"`{staged.package.id}` is not part of this version"
      else
        match staged.dependencies (← get).registry with
        | .error e => return .error e
        | .ok paths =>
          match ← installAll (fun path => installFor n path false) staged.package.id paths with
          | .error e => return .error e
          | .ok _ =>
            match declaredOnce (← get).registry staged.package with
            | .error e => return .error e
            | .ok _ =>
              match kindsDeclared (← get).registry staged.package with
              | .error e => return .error e
              | .ok _ => placePackage path approved staged

/-- What a request to install is answered with. -/
def installResponse : Except String Installing → Program H Response
  | .error e => return .error e
  | .ok .done => do
    broadcastEnvironment
    return .ok
  | .ok (.prompt harness token diff reason) => do
    broadcastEnvironment
    return .installPrompt harness token diff reason

def installHarness (path : String) : Program H Response := do
  installResponse (← installFor H.patience path false)

def approveInstall (harness : HarnessId) (token : String) : Program H Response := do
  match (← get).mine.pendingInstalls.lookup token with
  | none => return .error s!"no install of `{harness}` is waiting on approval"
  | some path =>
    modify fun c => c.own fun u => { u with pendingInstalls := u.pendingInstalls.erase token }
    auditOn "" "harness.capabilities_approved" (.obj [("harness", .str harness)]) "ok"
    installResponse (← installFor H.patience path true)

def uninstallHarness (harness : HarnessId) : Program H Response := do
  modify fun c => { c.own (fun u => { u with
      focus := if u.focus = some harness then none else u.focus
      pinned := u.pinned.filter fun p => p ≠ harness }) with
    registry := c.registry.remove harness }
  writeLock
  broadcastEnvironment
  return .ok

/-! ### Evals -/

/-- One case of a suite: on a clean document, its prompt answered to its end. After a case
that is not at its end yet there is none. -/
def evalCase (harness : HarnessId) (doc : DocId) (prompt : String) : Program H Unit := do
  if (← get).inline.isEmpty then
    modify fun c =>
      let kind := ((c.registry.get harness).map Installed.docKind).getD .crdt
      { c.own (fun u => { u with transcript := [], focus := some harness }) with
        docs := (c.docs.restore doc none).2.ensure doc kind
        providers := [] }
    evalTurn prompt

/-- Run a harness's suite against the model this environment has loaded. -/
def runSuite (harness : HarnessId) : Program H (Except String Nat) := do
  if ((← get).registry.get harness).isNone then return .error s!"no harness `{harness}`"
  else
    match ← docFor harness with
    | none => return .error s!"`{harness}` has no document to run the suite on"
    | some doc =>
      match H.suite (← nextRead) harness with
      | .error e => return .error e
      | .ok prompts =>
        prompts.forM fun prompt => evalCase harness doc prompt
        return .ok prompts.length

/-- Evals run in a transcript of their own; the user's is put back after them. -/
def runEvals (harness : HarnessId) : Program H Response := do
  let saved := (← get).mine.transcript
  modify fun c => { c.own (fun u => { u with transcript := [] }) with evalsRunning := true }
  let result ← runSuite harness
  modify fun c => { c.own (fun u => { u with transcript := saved }) with evalsRunning := false }
  match result with
  | .error e => return .error e
  | .ok total => return .evals harness total

/-! ### The dispatch -/

/-- `handle_inner`, past the check of who may make the request. -/
def dispatch : Request → Program H Response
  | .getEnvironment => return .environment (← get).environment
  | .setNetworkMode mode => do
    let r := H.setMode (← get).gateway mode
    modify fun c => { c with gateway := r.1 }
    if r.2 ≠ mode then
      notice .warn
        s!"the administrator's ceiling is `{r.2.label}`; the environment stays there"
    broadcastEnvironment
    return .ok
  | .setFocus harness => setFocus harness
  | .setPinned harness pinned => setPinned harness pinned
  | .setHarnessEnabled harness enabled => do
    modify fun c => { c with registry := c.registry.setEnabled harness enabled }
    broadcastEnvironment
    return .ok
  | .installHarness path => installHarness path
  | .approveInstall harness token => approveInstall harness token
  | .uninstallHarness harness => uninstallHarness harness
  | .sendMessage text conversation attachments => do
    let r ← send conversation text attachments
    return (← get).agentResponse r
  | .cancelTurn conversation => do
    let r ← cancel conversation
    return (← get).agentResponse r
  | .listTurns => return .turns (← get).turnList
  | .continueAnswer conversation => do
    let r ← continueAnswer conversation
    return (← get).agentResponse r
  | .getTranscript => return .transcript (← get).mine.transcript
  | .listConversations => return (← get).conversationsResponse
  | .newConversation => newConversation
  | .selectConversation id => selectConversation id
  | .deleteConversation id => deleteConversation id
  | .renameConversation id title => renameConversation id title
  | .approve id granted => approve id granted
  | .callTool tool params => return .toolResult (← callTool tool params .user)
  | .getWidgetView harness view => getWidgetView harness view
  | .widgetEvent harness view event => harnessEvent harness view (H.widgetEvent event)
  | .harnessEvent harness view payload => harnessEvent harness view payload
  | .presence board peer => presence board peer
  | .openDoc harness => openDoc harness
  | .getDocJson harness => getDocJson harness
  | .produceArtifact e => do
    match ← produceArtifact e with
    | .ok art => return .artifact art
    | .error message => return .error message
  | .listDocuments => return .documents (← get).listDocuments
  | .getDocBlob doc => getDocBlob doc
  | .writeDoc harness view doc commit => writeDoc harness view doc commit
  | .docSync doc peer message => docSync doc peer message
  | .docSyncEnd doc peer => docSyncEnd doc peer
  | .getHistory limit => return .history ((← get).historyFor limit)
  | .undo => undo
  | .redo => redo
  | .dropRun run => dropRun run
  | .previewContext budget => previewContext budget
  | .getActiveSet => return .active (← get).activeSet
  | .getTask => return .task (← get).mine.task
  | .getLock => return .lock ((← get).docs.json lockDoc)
  | .createUser email roles => createUser email roles
  | .setUserRoles user roles => setUserRoles user roles
  | .disableUser user disabled => disableUser user disabled
  | .listWorkspaces => return .workspaces (← get).workspaceInfos
  | .createWorkspace name => createWorkspace name
  | .setMember workspace principal level => setMember workspace principal level
  | .removeMember workspace principal => removeMember workspace principal
  | .setAgentWrites workspace mode => setAgentWrites workspace mode
  | .selectWorkspace workspace reason => selectWorkspace workspace reason
  | .setDocumentAccess doc members => setDocumentAccess doc members
  | .findCapability need => return .capabilities (H.rankCapabilities (← get).registry need)
  | .runEvals harness => runEvals harness
  | .other _ => return .other

/-- Refuse what only an administrator does, and go on to the request. -/
def handleInner (req : Request) : Program H Response := do
  match adminOnly req with
  | none => dispatch req
  | some event =>
    match ← requireAdmin event with
    | some refused => return refused
    | none => dispatch req

/-- The server's own requests, signing users in and out: of what is modelled here they only
make the first administrator's account. -/
inductive SystemRequest where
  | firstAdmin (email : String)
  | other

/-- `handle_system`. -/
def handleSystem : SystemRequest → Program H Unit
  | .firstAdmin email => do
    if (← get).store.users.keys.isEmpty then
      let _ ← addAccount email [.admin]
  | .other => return

/-- A request from `caller`: the per-user state becomes theirs, every check is made as them,
and every event of the handling goes to them. -/
@[grind =]
def handleAs (caller : Caller) (req : Request) : Program H Response := do
  if caller.isSystem then
    return .error "the system caller only signs users in and out"
  else
    activate caller
    handleInner req

/-! ### Starting -/

/-- What a package found in a directory needs is installed first; one that cannot have it is
set aside. -/
def settleDependencies (staged : Staged) : Program H Unit := do
  match staged.dependencies (← get).registry with
  | .error e => unavailable e
  | .ok paths =>
    match ← installAll (fun path => installFor H.patience path false) staged.package.id paths
      with
    | .error e => unavailable e
    | .ok _ => return
where
  unavailable (e : String) : Program H Unit := do
    notice .error s!"`{staged.package.id}` is not available: {e}"
    modify fun c => { c with registry := c.registry.remove staged.package.id }

/-- A package naming an interchange kind no installed types package declares is set
aside. -/
def settleKinds (package : Installed) : Program H Unit := do
  match kindsDeclared (← get).registry package with
  | .ok _ => return
  | .error e =>
    notice .error s!"`{package.id}` is not available: {e}"
    modify fun c => { c with registry := c.registry.remove package.id }

/-- After the package directories are loaded: dependencies, kinds, documents, a focus, the
lock. -/
def settlePackages (packages : List Staged) : Program H Unit := do
  packages.forM settleDependencies
  (← get).registry.iter.forM settleKinds
  ((← get).registry.iter.filter Installed.isHarness).forM fun h => do
    let _ ← docFor h.id
  modify fun c => c.own fun u => { u with
    focus := if u.focus.isNone then c.registry.firstHarness else u.focus }
  writeLock

/-- Put the packages found in, but for those this release sets aside, and settle them. -/
def loadHarnesses (packages : List Staged) : Program H Unit := do
  let c ← get
  let kept := packages.filter fun s => !c.setAside s.package.id
  modify fun c => { c with
    registry := (kept.map Staged.package).foldl Registry.insert c.registry }
  settlePackages kept

namespace Core

/-- The workspaces the database knows. -/
def loadWorkspaces (db : Store) : AccessControl :=
  db.workspaces.entries.foldl (fun ac e => ac.addWorkspace e.2) .new

/-- A Core just made on a database, before its packages and documents. -/
@[grind =]
def fresh (cfg : Config) (db : Store) (dag : Dag) (reads : Nat) : Core H :=
  let personal := Workspace.personal cfg.user
  let known := loadWorkspaces db
  let missing := (known.workspace personal.id).isNone
  let access := if missing then known.addWorkspace personal else known
  let db := if missing then db.putWorkspace personal else db
  let loaded := Chats.load db cfg.user personal.id (H.clock reads)
  { cfg := cfg
    registry := .new
    docs := .new
    store := loaded.2
    dag := dag
    gateway := H.newGateway
    audit := []
    access := access
    providers := []
    mine := {
      workspace := personal.id
      breakGlass := none
      focus := none
      pinned := []
      touched := []
      transcript := (loaded.1.currentChat.map Conversation.messages).getD []
      pending := ∅
      nextApproval := 1
      pendingInstalls := ∅
      proposals := []
      run := none
      task := loaded.2.ledger cfg.user personal.id
      conversations := loaded.1 }
    syncStates := ∅
    syncClock := 0
    active := .localUser cfg.user
    users := ∅
    evalsRunning := false
    turns := []
    nextTurn := 1
    turnAtWork := none
    inline := []
    runInline := false
    posted := []
    reading := []
    events := []
    begins := []
    deeds := []
    reads := reads + 1 }

/-- `Core::new`, on a database, with the packages found in its directories. -/
@[grind =]
def new (cfg : Config) (db : Store) (dag : Dag) (reads : Nat) (packages : List Staged) :
    Core H :=
  ((do
    if !packages.isEmpty then loadHarnesses packages
    loadDocuments : Program H Unit).run (fresh cfg db dag reads)).2

end Core

end LocalSpace
