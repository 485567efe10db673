import LocalSpace.Exposure

/-!
# The single mutation path

Every tool call comes through `callTool` (`lib.rs`): whose tool it is, whether the caller may
use it, the confirmation gate, and `execute`, which runs the harness's logic, commits what it
changed and keeps the ledger. A call that names an artifact is handed its content
(`resolveHandoff`); a result, or a surface's export, may register one (`registerArtifact`,
`produceArtifact`).
-/

namespace LocalSpace

variable {H : Host}

/-! ### The ledger -/

/-- Write the ledger through, and tell its person. -/
def emitTask : Program H Unit := do
  modify fun c => { c with
    store := c.store.putLedger c.active.user c.mine.workspace c.mine.task }
  emit (.taskChanged (← get).mine.task)

/-- A change to the active user's ledger. -/
def changeTask (change : Task → Task) : Program H Unit :=
  modify fun c => c.own fun u => { u with task := change u.task }

/-- The plan with the first open step of a harness moved on, if that changes anything. -/
def progressed (owner : HarnessId) (next : StepStatus) : List Step → Option (List Step)
  | [] => none
  | s :: rest =>
    if s.harness = owner ∧ (s.status = .pending ∨ s.status = .active) then
      if s.status = next then none else some ({ s with status := next } :: rest)
    else (progressed owner next rest).map (s :: ·)

/-- Move the plan along as tools run. -/
def taskProgress (tool : String) (outcome : ToolOutcome) : Program H Unit := do
  let c ← get
  match c.registry.ownerOf tool with
  | none => return
  | some h =>
    match progressed h.id (if outcome.failed then .failed else .active) c.mine.task.plan with
    | none => return
    | some plan =>
      changeTask fun t => { t with plan := plan }
      emitTask

/-- The number of an artifact's id, `art_7`. -/
def artifactNumber (id : String) : Option Nat :=
  if id.startsWith "art_" then parseU32 (id.drop 4).toString else none

/-- `art_1`, `art_2`, … unique within a ledger. -/
def nextArtifactId (task : Task) : String :=
  s!"art_{(task.artifacts.filterMap fun a => artifactNumber a.id).foldl max 0 + 1}"

/-- Which installed harnesses could take an artifact of this kind. -/
def whoAccepts (registry : Registry) (kind : String) : List HarnessId :=
  (registry.iter.filter fun h => h.enabled && h.accepts.contains kind).map Installed.id

/-! ### Handoffs and artifacts -/

namespace Core

/-- The content of the document an artifact points to: live, or at the version it is pinned
to. -/
def artifactContent (c : Core H) (art : Artifact) : Except String Json :=
  let kind := (c.docs.kind art.doc).getD .crdt
  if art.commit = "" then .ok (c.docs.json art.doc)
  else
    match c.dag.getCommit art.commit with
    | none => .error s!"commit {art.commit} is not in the DAG"
    | some commit =>
      match c.dag.getBlob commit.docHash with
      | none => .error s!"the version {art.id} is pinned to is missing from the DAG"
      | some bytes => .ok ((DocStore.jsonOfSnapshot H kind bytes).getD .null)

/-- The artifact a call names, if its ledger has it and the harness accepts its kind. -/
def namedArtifact (c : Core H) (owner : HarnessId) (id : String) : Except String Artifact :=
  match c.mine.task.artifacts.find? fun a => a.id = id with
  | none =>
    let known := c.mine.task.artifacts.map Artifact.id
    .error (if known.isEmpty then
        s!"`{id}` is not an artifact in this task; nothing has been produced yet"
      else s!"`{id}` is not an artifact in this task; the ledger has " ++
        ", ".intercalate known)
  | some art =>
    let accepts := ((c.registry.get owner).map Installed.accepts).getD []
    if accepts.contains art.kind then .ok art
    else
      let takers := whoAccepts c.registry art.kind
      .error (if takers.isEmpty then
          s!"`{owner}` does not accept {art.kind}, and nothing installed does"
        else s!"`{owner}` does not accept {art.kind}; " ++ ", ".intercalate takers ++ " does")

end Core

/-- What a harness is handed of an artifact. -/
def handoffPayload (art : Artifact) (content : Json) : Json :=
  .obj [("commit", .str art.commit), ("content", content), ("id", .str art.id),
    ("kind", .str art.kind), ("produced-by", .str art.producedBy), ("summary", .str art.summary)]

/-- If the call names an `artifact`, resolve it and check the handoff: what to hand the
harness. -/
def resolveHandoff (owner : HarnessId) (params : Json) :
    Program H (Except String (List (String × String))) := do
  match (params.get? "artifact").bind Json.asStr with
  | none => return .ok []
  | some id =>
    match (← get).namedArtifact owner id with
    | .error e => return .error e
    | .ok art =>
      match (← get).artifactContent art with
      | .error e => return .error e
      | .ok content =>
        auditOn art.doc "artifact.handoff"
          (.obj [("artifact", .str art.id), ("kind", .str art.kind), ("to", .str owner)]) "ok"
        return .ok [(art.id, H.render (handoffPayload art content))]

/-- What refuses an artifact's registration: its kind is missing, not one the harness
produces, or not declared, or a required field is missing. -/
def Core.refusesArtifact (c : Core H) (owner : HarnessId) (spec : Json) : Option String :=
  match (spec.get? "kind").bind Json.asStr with
  | none => some "an artifact needs a `kind`"
  | some kind =>
    if !(((c.registry.get owner).map Installed.produces).getD []).contains kind then
      some (s!"`{owner}` does not declare that it produces {kind}; " ++
        "add it to [contributes] produces")
    else
      match c.registry.typeDecl kind with
      | none => some s!"`{kind}` is not declared by any installed types package"
      | some (package, decl) =>
        let missing := decl.missing (((spec.get? "fields").bind Json.asObject).getD [])
        if missing.isEmpty then none
        else some (s!"an artifact of `{kind}` carries the field(s) " ++
          ", ".intercalate missing ++ s!", says `{package.id}`; this one lacks them")

/-- Pin a typed artifact to the document's current version and put it in the ledger. -/
def registerArtifact (owner : HarnessId) (doc : DocId) (commit : Option CommitId) (spec : Json)
    (fallbackSummary : String) (file : Option ArtifactFile) :
    Program H (Except String String) := do
  let c ← get
  match c.refusesArtifact owner spec with
  | some refused => return .error refused
  | none =>
    let kind := spec.strAt "kind" ""
    let commit := commit.getD ((c.dag.head doc).getD "")
    let id := nextArtifactId c.mine.task
    let said := spec.strAt "summary" ""
    let art : Artifact :=
      { id := id
        kind := kind
        doc := doc
        commit := commit
        summary := if (trim said).isEmpty then fallbackSummary else said
        producedBy := owner
        fields := .obj (((spec.get? "fields").bind Json.asObject).getD [])
        file := file }
    changeTask fun t => { t with artifacts := t.artifacts ++ [art] }
    auditOn doc "artifact.produced"
      (.obj [("artifact", .str id), ("by", .str owner), ("commit", .str commit),
        ("kind", .str kind)]) "ok"
    emitTask
    return .ok id

/-- An export as a surface offers it. -/
structure Export where
  harness : HarnessId
  view : String
  kind : String
  name : String
  mime : String
  bytes : Bytes
  fields : Json
  summary : String

namespace Export

/-- The document of a file, named by its content. -/
def blobId (hash : String) : DocId :=
  s!"blob:{hash}"

/-- The document an export makes: identical bytes are one document. -/
def blobDoc (H : Host) (e : Export) : DocId :=
  blobId (H.blake3 e.bytes)

/-- The export's fields, with the document and its head where it does not name them. -/
def filled (e : Export) (ownDoc : DocId) (head : Option CommitId) : List (String × Json) :=
  let fields := (e.fields.asObject).getD []
  let withDoc :=
    if (fields.lookup "document").isSome then fields
    else Json.insertField "document" (.str ownDoc) fields
  if (withDoc.lookup "commit").isSome then withDoc
  else Json.insertField "commit" (.str (head.getD "")) withDoc

/-- The commit an export's fields say it was made at. -/
def sourceCommit (fields : List (String × Json)) : CommitId :=
  ((fields.lookup "commit").bind Json.asStr).getD ""

/-- What refuses an export's provenance: a surface exports its own harness's document, at a
commit that is on it. -/
def refusesSource (c : Core H) (e : Export) (ownDoc : DocId) (fields : List (String × Json)) :
    Option String :=
  match (fields.lookup "document").bind Json.asStr with
  | some document =>
    if document ≠ ownDoc then
      some s!"`{e.harness}` may export its own document `{ownDoc}`, not `{document}`"
    else atCommit
  | none => atCommit
where
  atCommit : Option String :=
    let source := sourceCommit fields
    match c.dag.getCommit source with
    | some commit =>
      if commit.doc = ownDoc then none
      else some s!"commit `{source}` is on `{commit.doc}`, not on `{ownDoc}`"
    | none =>
      if source = "" ∧ (c.dag.head ownDoc).isNone then none
      else some s!"`{source}` is not a commit on `{ownDoc}`"

/-- What refuses an export, once its harness's document is known. -/
def refuses (c : Core H) (e : Export) (ownDoc : DocId) : Except String (String × String) :=
  match c.access.check c.identity ownDoc .view with
  | .error denied => .error denied.text
  | .ok _ =>
    match c.registry.typeDecl e.kind with
    | none => .error s!"`{e.kind}` is not declared by any installed types package"
    | some (package, decl) =>
      if decl.mime ≠ e.mime then
        .error (s!"an artifact of `{e.kind}` is `{decl.mime}`, says `{package.id}`; " ++
          s!"this export claims `{e.mime}`")
      else
        let fields := e.filled ownDoc (c.dag.head ownDoc)
        let missing := decl.missing fields
        if !missing.isEmpty then
          .error (s!"an artifact of `{e.kind}` carries the field(s) " ++
            ", ".intercalate missing ++ s!", says `{package.id}`; this one lacks them")
        else
          match refusesSource c e ownDoc fields with
          | some refused => .error refused
          | none =>
            if e.bytes.isEmpty then .error "the export is empty"
            else if maxArtifactBytes < e.bytes.length then
              .error (s!"the export is {e.bytes.length} bytes; " ++
                s!"the limit is {maxArtifactBytes / 2 ^ 20} MiB")
            else .ok (sourceCommit fields, decl.extension)

/-- What refuses an export before its harness's document is looked for. -/
def refusesHarness (c : Core H) (e : Export) : Option String :=
  match c.registry.get e.harness with
  | none => some s!"no harness `{e.harness}`"
  | some h =>
    if !h.views.contains e.view then some s!"`{e.harness}` has no view `{e.view}`"
    else if !h.produces.contains e.kind then
      some (s!"`{e.harness}` does not declare that it produces {e.kind}; " ++
        "add it to [contributes] produces")
    else none

/-- The record of the document an export makes. -/
@[grind =]
def record (c : Core H) (e : Export) (name : String) (ownDoc : DocId) (source : CommitId)
    (now : Nat) : DocumentRecord where
  title := name
  kind := .blob
  mime := e.mime
  bytes := e.bytes.length
  hash := H.blake3 e.bytes
  source := .export e.harness ownDoc source
  createdMs := now
  workspace := c.mine.workspace
  harness := none
  createdBy := c.active.user
  acl := none

/-- What an export's artifact says of it. -/
@[grind =]
def spec (e : Export) (fields : List (String × Json)) : Json :=
  .obj [("fields", .obj fields), ("kind", .str e.kind), ("summary", .str e.summary)]

end Export

/-- Keep an export that was not refused: the document named by its content, its commit, its
record. -/
def keepExport (e : Export) (ownDoc : DocId) (source : CommitId) (name : String) :
    Program H Commit := do
  let doc := e.blobDoc H
  modify fun c => { c with
    docs := c.docs.ensure doc .blob
    access := c.access.addDocument doc c.mine.workspace name none }
  let commit ← commitDoc {
    doc := doc
    harness := e.harness
    tool := "surface:export"
    params := .obj [("commit", .str source), ("document", .str ownDoc), ("kind", .str e.kind),
      ("name", .str name)]
    bytes := e.bytes
    diffSummary := s!"exported {name}, {e.bytes.length} bytes of {e.kind}"
    author := .user
    run := none }
  let now ← nowMs
  modify fun c => { c with
    store := c.store.putDocument doc (e.record c name ownDoc source now) }
  auditOn doc "document.create"
    (.obj [("bytes", .num e.bytes.length 0), ("harness", .str e.harness), ("kind", .str e.kind),
      ("mime", .str e.mime), ("name", .str name), ("source", .str "export")]) "ok"
  return commit

/-- A file a surface rendered from its harness's document, kept as a document of its own and
registered as a typed artifact pinned to it. Everything is checked before anything is
written. -/
def produceArtifact (e : Export) : Program H (Except String Artifact) := do
  match e.refusesHarness (← get) with
  | some refused => return .error refused
  | none =>
    match ← docFor e.harness with
    | none => return .error s!"`{e.harness}` has no document to export"
    | some ownDoc =>
      let c ← get
      match e.refuses c ownDoc with
      | .error refused => return .error refused
      | .ok (source, extension) =>
        let fields := e.filled ownDoc (c.dag.head ownDoc)
        let name := H.fileName e.name (source.take 7).toString extension
        let commit ← keepExport e ownDoc source name
        match ← registerArtifact e.harness (e.blobDoc H) (some commit.id) (e.spec fields)
            s!"exported {name}, {e.bytes.length} bytes of {e.kind}"
            (some ⟨name, e.mime, e.bytes.length⟩) with
        | .error refused => return .error refused
        | .ok id =>
          emit (.docChanged (e.blobDoc H))
          match (← get).mine.task.artifacts.find? fun a => a.id = id with
          | some art => return .ok art
          | none => return .error s!"`{id}` was registered and is not in the ledger"

end LocalSpace
