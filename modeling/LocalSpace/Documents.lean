import LocalSpace.Core

/-!
# Documents: bringing in, changing, listing, replicas

The operations of `lib.rs` on documents that more than one request shares. A harness's
document is brought in on first use per workspace (`docFor`); every change ends in
`docChanged`, which tells whoever reads the document's JSON and sends every replica what it
lacks (`syncReplica`).
-/

namespace LocalSpace

variable {H : Host}

namespace Core

/-- Whether a record is of the document a workspace holds for a harness. -/
def isDocumentOf (workspace : WorkspaceId) (harness : HarnessId) (r : DocumentRecord) : Bool :=
  r.workspace = workspace ∧ r.harness = some harness

/-- Of two documents, the one made first. -/
def older (a b : DocId × DocumentRecord) : DocId × DocumentRecord :=
  if b.2.createdMs < a.2.createdMs ∨ (b.2.createdMs = a.2.createdMs ∧ b.1 < a.1) then b else a

/-- The document this workspace already holds for a harness, if any: the oldest. -/
def existingDocumentOf (c : Core H) (harness : HarnessId) : Option DocId :=
  match c.store.allDocuments.filter fun e => isDocumentOf c.mine.workspace harness e.2 with
  | [] => none
  | e :: rest => some (rest.foldl older e).1

/-- The record of a document made for a harness. -/
def harnessRecord (c : Core H) (harness : HarnessId) (title : String) (kind : DocKind)
    (now : Nat) : DocumentRecord where
  title := title
  kind := kind
  mime := match kind with
    | .crdt => "application/json"
    | .blob => "application/octet-stream"
  bytes := 0
  hash := ""
  source := .harness harness
  createdMs := now
  workspace := c.mine.workspace
  harness := some harness
  createdBy := c.active.user
  acl := none

/-- What a document's history restores it to: the bytes of its head's commit. -/
def headBytes (c : Core H) (doc : DocId) : Option Bytes :=
  ((c.dag.head doc).bind c.dag.getCommit).bind fun commit => c.dag.getBlob commit.docHash

/-- Whether the caller may change a harness's document in this workspace: the document's
own answer once it exists, the workspace's before that. -/
def mayEditThrough (c : Core H) (harness : HarnessId) : Bool :=
  match c.existingDocumentOf harness with
  | some doc => c.may doc .edit
  | none =>
    (c.mine.breakGlass.any fun glass => glass.workspace = c.mine.workspace) ||
      (c.access.levelIn c.mine.workspace c.identity).any fun level => .edit ≤ level

/-- The installed harnesses whose document in this workspace the caller may read but not
change. -/
def readOnlyHarnesses (c : Core H) : List HarnessId :=
  ((c.registry.iter.filter Installed.isHarness).filter fun h => !c.mayEditThrough h.id).map
    Installed.id

/-- The document Ctrl+Z reaches: the most recently changed document in the caller's
workspace that they may edit; nothing for a read-only account. -/
def undoableDoc (c : Core H) : Option DocId :=
  if c.active.isViewer then none
  else ((c.dag.history 200).map Commit.doc).find? fun doc =>
    doc ≠ lockDoc &&
      ((c.access.document doc).any fun m => m.workspace = c.mine.workspace) &&
      c.may doc .edit

/-- Whether this release sets a harness aside. -/
def setAside (c : Core H) (harness : HarnessId) : Bool :=
  c.cfg.setAside.contains harness

/-- The harness a document is of, or was exported from. -/
def ownerOf (r : DocumentRecord) : HarnessId :=
  match r.source with
  | .harness h => h
  | .export h _ _ => h

/-- A document as it is listed. -/
def documentInfo (c : Core H) (id : DocId) (r : DocumentRecord) : DocumentInfo :=
  let head := c.dag.head id
  let hash := ((head.bind c.dag.getCommit).map Commit.docHash).getD ""
  { id := id
    title := r.title
    kind := r.kind
    mime := r.mime
    bytes := if r.harness.isNone ∧ hash = r.hash then some r.bytes else none
    hash := hash
    head := head
    source := r.source
    createdMs := r.createdMs }

/-- Every document the caller may see, from the records. -/
def listDocuments (c : Core H) : List DocumentInfo :=
  ((c.store.allDocuments.filter fun e => c.may e.1 .view && !c.setAside (ownerOf e.2)).map
    fun e => c.documentInfo e.1 e.2).insertionSort fun a b =>
      a.title < b.title ∨ (a.title = b.title ∧ a.id ≤ b.id)

end Core

/-! ### Bringing a document in -/

/-- The document this workspace shows for a harness, made on first use. -/
def harnessDocument (harness : HarnessId) (title : String) (kind : DocKind) :
    Program H DocId := do
  match (← get).existingDocumentOf harness with
  | some id => return id
  | none =>
    let id := s!"doc_{H.uuid (← nextRead)}"
    let now ← nowMs
    modify fun c => { c with
      store := c.store.putDocument id (c.harnessRecord harness title kind now) }
    return id

/-- Bring a document back to the state its DAG head records. -/
def restoreFromDag (doc : DocId) : Program H Unit := do
  let c ← get
  match (c.dag.head doc).bind c.dag.getCommit with
  | none => return
  | some commit =>
    match c.dag.getBlob commit.docHash with
    | none =>
      notice .warn s!"`{doc}` has history but its content is missing from the blob store"
    | some bytes =>
      let r := c.docs.restore doc (some bytes)
      modify fun c => { c with docs := r.2 }
      match r.1 with
      | .ok _ => return
      | .error e => notice .error s!"`{doc}` could not be restored from its history: {e}"

/-- A document not known yet: registered with the store and the ACL, and restored from its
history. -/
def bringIn (doc : DocId) (title : String) (kind : DocKind) : Program H Unit := do
  modify fun c => { c with
    docs := c.docs.ensure doc kind
    access := c.access.addDocument doc c.mine.workspace title none }
  restoreFromDag doc

/-- The active workspace's document for a harness, brought in on first use. -/
@[grind =]
def docFor (harness : HarnessId) : Program H (Option DocId) := do
  match (← get).registry.get harness with
  | none => return none
  | some h =>
    if h.isHarness then
      let doc ← harnessDocument harness h.title h.docKind
      if !(← get).docs.exists? doc then
        bringIn doc h.title h.docKind
      return some doc
    else return none

/-- One record of the database, known to the store and the ACL; a harness's document is
brought in when a workspace first asks for it. -/
def loadDocument (id : DocId) (r : DocumentRecord) : Program H Unit :=
  modify fun c => { c with
    docs := if r.harness.isNone then c.docs.ensure id r.kind else c.docs
    access := c.access.addDocument id
      (if r.workspace = "" then c.mine.workspace else r.workspace) r.title r.acl }

/-- Every document the database records. -/
def loadDocuments : Program H Unit := do
  (← get).store.allDocuments.forM fun e => loadDocument e.1 e.2

/-! ### Replicas -/

namespace Core

/-- The replicas of a document. -/
def replicasOf (c : Core H) (doc : DocId) : Table String (ReplicaSync H) :=
  (c.syncStates.lookup doc).getD ∅

/-- One replica of a document. -/
@[grind =]
def replica (c : Core H) (doc : DocId) (peer : String) : Option (ReplicaSync H) :=
  (c.replicasOf doc).lookup peer

/-- The replicas of a document, as they now are. -/
def setReplicas (c : Core H) (doc : DocId) (replicas : Table String (ReplicaSync H)) : Core H :=
  { c with syncStates := c.syncStates.insert doc replicas }

end Core

/-- Send one replica what it lacks, if anything. -/
def syncReplica (doc : DocId) (peer : String) : Program H Unit := do
  let c ← get
  match c.replica doc peer with
  | none => return
  | some replica =>
    let r := c.docs.syncMessage doc replica.state
    modify fun c => c.setReplicas doc
      ((c.replicasOf doc).insert peer { replica with state := r.2 })
    match r.1 with
    | none => return
    | some message => emitTo (.user replica.user) (.docPatch doc peer message)

/-- A document changed: tell whatever reads its JSON, and send every replica of it what
that replica lacks. -/
def docChanged (doc : DocId) : Program H Unit := do
  emitAll (.docChanged doc)
  ((← get).replicasOf doc).keys.forM fun peer => syncReplica doc peer

/-- A replica's sync state, taken out while a message is applied; a replica Core has not
heard from starts afresh. -/
def takeReplica (doc : DocId) (peer : String) : Program H (ReplicaSync H) := do
  let c ← get
  match c.replica doc peer with
  | none => return ⟨H.newSync, 0, ""⟩
  | some replica =>
    modify fun c => c.setReplicas doc ((c.replicasOf doc).erase peer)
    return replica

/-- Of two replicas, the one heard from longer ago. -/
def heardEarlier (a b : String × Nat) : String × Nat :=
  if b.2 < a.2 then b else a

/-- The replica heard from longest ago. -/
def oldestReplica (replicas : Table String (ReplicaSync H)) : Option String :=
  match replicas.entries.map fun e => (e.1, e.2.seen) with
  | [] => none
  | e :: rest => some (rest.foldl heardEarlier e).1

/-- The replicas, with room for one more: past the limit, the one heard from longest ago
makes it. -/
def withRoom (replicas : Table String (ReplicaSync H)) : Table String (ReplicaSync H) :=
  if maxReplicasPerDoc ≤ replicas.keys.length then
    match oldestReplica replicas with
    | some oldest => replicas.erase oldest
    | none => replicas
  else replicas

/-- Put a replica's state back, marked as just heard from and as the caller's. -/
def putReplica (doc : DocId) (peer : String) (state : H.Sync) : Program H Unit :=
  modify fun c => ({ c with syncClock := c.syncClock + 1 } : Core H).setReplicas doc
    ((withRoom (c.replicasOf doc)).insert peer ⟨state, c.syncClock + 1, c.active.user⟩)

/-! ### Changing a document -/

/-- Commit what a document now is. -/
def commitDoc (e : Dag.Entry) : Program H Commit := do
  let idNow ← nowMs
  let atNow ← nowMs
  let r := (← get).dag.commit H e idNow atNow
  modify fun c => { c with dag := r.2 }
  return r.1

/-- Reconcile a JSON value into a document. -/
@[grind =]
def applyJson (doc : DocId) (next : Json) : Program H (Except String Changes) := do
  let r := (← get).docs.applyJson doc next
  modify fun c => { c with docs := r.2 }
  return r.1

/-- Put a document back to what a revert says. -/
@[grind =]
def applyRevert (revert : Revert) : Program H (Except String Unit) := do
  let r := (← get).docs.restore revert.doc revert.bytes
  modify fun c => { c with docs := r.2 }
  match r.1 with
  | .error e => return .error e
  | .ok _ =>
    modify fun c => { c with providers := [] }
    docChanged revert.doc
    notice .info revert.summary
    return .ok ()

/-- Rewrite `environment.lock` from the installed set. -/
def writeLock : Program H Unit := do
  let lock := H.lock (← get).registry
  modify fun c => { c with docs := c.docs.ensure lockDoc .crdt }
  match ← applyJson lockDoc lock with
  | .error e => trace s!"environment.lock could not be written: {e}"
  | .ok changes =>
    if !changes.isEmpty then
      let packages := (((lock.get? "packages").bind Json.asArray).getD []).length
      let _ ← commitDoc {
        doc := lockDoc
        harness := "core"
        tool := "environment.lock"
        params := .null
        bytes := (← get).docs.snapshot lockDoc
        diffSummary := s!"environment.lock: {packages} package(s)"
        author := .user
        run := none }

end LocalSpace
