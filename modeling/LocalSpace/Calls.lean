import LocalSpace.Tools

/-!
# Tool calls

`Core::call_tool`, `execute` and Core's own tools (`lib.rs`). A call is checked against what
its tool is declared to be: a tool declared to write needs `edit` on its harness's document,
any other needs `view`; the logic then runs, and a document it hands back is applied and
committed.
-/

namespace LocalSpace

variable {H : Host}

/-! ### Core's own tools -/

def hitJson (hit : CapabilityHit) : Json :=
  .obj [("harness", .str hit.harness), ("score", hit.score), ("summary", .str hit.summary),
    ("tool", .str hit.tool)]

/-- Put a harness in focus, and among those touched. -/
def focusOn (harness : HarnessId) : Program H Unit :=
  modify fun c => c.own fun u => { u with
    focus := some harness
    touched := if u.touched.contains harness then u.touched else u.touched ++ [harness] }

def findCapability (params : Json) : Program H ToolOutcome := do
  let need := params.strAt "need" ""
  let hits := H.rankCapabilities (← get).registry need
  match hits with
  | [] =>
    return .ok s!"nothing installed matches `{need}`" (.arr []) none
  | top :: _ =>
    focusOn top.harness
    return .ok s!"{hits.length} match(es); `{top.harness}` is now focused"
      (.arr (hits.map hitJson)) none

/-- The steps of a plan, or the first harness among them that is not installed. -/
def plannedSteps (registry : Registry) : List Json → Except HarnessId (List Step)
  | [] => .ok []
  | s :: rest =>
    let harness := s.strAt "harness" ""
    if (registry.get harness).isNone then .error harness
    else
      match plannedSteps registry rest with
      | .error e => .error e
      | .ok steps => .ok (⟨harness, s.strAt "intent" "", .pending⟩ :: steps)

def taskPlan (params : Json) : Program H ToolOutcome := do
  match plannedSteps (← get).registry (((params.get? "steps").bind Json.asArray).getD []) with
  | .error harness =>
    return .error s!"`{harness}` is not installed; find_capability lists what is"
  | .ok plan =>
    changeTask fun t => { t with plan := plan }
    emitTask
    return .ok s!"plan written: {plan.length} step(s)"
      (.obj [("steps", .num plan.length 0)]) none

def taskNote (params : Json) : Program H ToolOutcome := do
  let text := trim (params.strAt "text" "")
  if text = "" then
    return .error "a note needs some text"
  else
    changeTask fun t => { t with notes := t.notes ++ [text] }
    emitTask
    return .ok "noted" (.obj [("notes", .num (← get).mine.task.notes.length 0)]) none

def webSearch (params : Json) : Program H ToolOutcome := do
  let n ← nextRead
  let r := H.search n (← get).gateway (params.strAt "query" "")
    ((params.get? "site").bind Json.asStr)
  modify fun c => { c with gateway := r.1 }
  match r.2 with
  | .error e => return .error e
  | .ok hits => return .ok s!"{((hits.asArray).getD []).length} result(s)" hits none

/-- Hold a call until its person answers: it is kept under a new id, and they are asked. -/
def askApproval (label : String) (kind : ApprovalKind) (tool : String) (params : Json)
    (prompt : String) : Program H ToolOutcome := do
  let id := s!"{label}:{(← get).mine.nextApproval}"
  modify fun c => c.own fun u => { u with
    nextApproval := u.nextApproval + 1
    pending := u.pending.insert id ⟨tool, params, true, c.turnAtWork⟩ }
  emit (.approvalRequest id kind prompt)
  return .awaitingConfirm prompt

def webFetch (params : Json) : Program H ToolOutcome := do
  let url := params.strAt "url" ""
  match H.egress (← get).gateway url with
  | .denied why => return .denied why
  | .needsApproval domain =>
    askApproval "egress" .egress "web.fetch" params
      s!"Allow this environment to fetch from `{domain}`?"
  | .allowed =>
    let n ← nextRead
    let r := H.fetch n (← get).gateway url (params.strAt "mode" "text")
    modify fun c => { c with gateway := r.1 }
    match r.2 with
    | .error e => return .error e
    | .ok f =>
      auditOn "" "gateway.fetch" (.obj [("bytes", .num f.bytes 0), ("url", .str f.url)]) "ok"
      return .ok s!"fetched {f.url} ({f.bytes} bytes), cached with a citation"
        (.obj [("content", .str (H.untrusted f.url f.content)), ("title", .str f.title),
          ("url", .str f.url)]) none

def callCoreTool (tool : String) (params : Json) : Program H ToolOutcome :=
  if tool = "find_capability" then findCapability params
  else if tool = "task.plan" then taskPlan params
  else if tool = "task.note" then taskNote params
  else if tool = "web.search" then webSearch params
  else if tool = "web.fetch" then webFetch params
  else return .error s!"`{tool}` is not a Core tool"

/-! ### Running a harness -/

/-- A harness asked for more memory than it declared: it is stopped, and the user is
told. -/
def killOverBudget (harness : HarnessId) (asked : Nat) : Program H Unit := do
  let budget := (((← get).registry.get harness).map Installed.logicMemoryMb).getD 0
  let askedMb : Nat := (asked + (2 ^ 20 - 1)) / 2 ^ 20
  notice .warn (s!"`{harness}` exceeded its declared memory budget of {budget} MB " ++
    s!"(asked for {askedMb} MB). It was stopped and will restart on its next call.")
  auditOn "" "harness.over_budget"
    (.obj [("asked_mb", .num askedMb 0), ("budget_mb", .num budget 0),
      ("harness", .str harness)]) "killed"
  broadcastEnvironment

/-- Ask a harness's logic, online or brought online, and stop it if it went over its
budget. -/
def runLogic {α : Type} (harness : HarnessId) (ask : Nat → α) :
    Program H (Except String α) := do
  if ((← get).registry.get harness).isNone then
    return .error s!"`{harness}` is not installed"
  else
    match ← ensureRuntime harness with
    | .error e => return .error s!"`{harness}` could not start: {e}"
    | .ok _ =>
      let n ← nextRead
      match H.overBudget n harness with
      | some asked => killOverBudget harness asked
      | none => pure ()
      return .ok (ask n)

/-- Commit a change made to a document through a tool. -/
def commitTool (doc : DocId) (owner tool : String) (params : Json) (diffSummary : String)
    (author : Author) : Program H CommitId := do
  let c ← get
  let commit ← commitDoc {
    doc := doc
    harness := owner
    tool := tool
    params := params
    bytes := c.docs.snapshot doc
    diffSummary := diffSummary
    author := author
    run := c.mine.run }
  return commit.id

/-- Apply the document a call handed back and commit what it changed: the words for the
change, and the commit if there was one. -/
def applyOutput (doc : DocId) (owner tool : String) (params : Json) (author : Author)
    (out : HarnessOutput) : Program H (Except String (String × Option CommitId)) := do
  match out.doc with
  | none => return .ok (out.diffSummary.getD "no change", none)
  | some next =>
    match ← applyJson doc next with
    | .error e =>
      return .error s!"the harness returned a document Core could not apply: {e}"
    | .ok changes =>
      if changes.isEmpty then
        return .ok (out.diffSummary.getD "no change", none)
      else
        let diffSummary := out.diffSummary.getD changes.summary
        let id ← commitTool doc owner tool params diffSummary author
        docChanged doc
        return .ok (diffSummary, some id)

/-- What a call that ran and was applied leaves: focus follows it, and it may register an
artifact. -/
def settleCall (doc : DocId) (owner tool : String) (decl : ToolDecl) (out : HarnessOutput)
    (diffSummary : String) (commit : Option CommitId) : Program H ToolOutcome := do
  focusOn owner
  auditOn doc "tool.call"
    (.obj [("commit", (commit.map Json.str).getD .null), ("confirm", .str decl.confirm.label),
      ("harness", .str owner), ("tool", .str tool)]) "ok"
  match out.result.get? "artifact" with
  | none => return .ok diffSummary out.result commit
  | some spec =>
    match ← registerArtifact owner doc commit spec diffSummary none with
    | .ok id =>
      let kind := spec.strAt "kind" "?"
      return .ok s!"{diffSummary} → {id} ({kind})" out.result commit
    | .error e =>
      trace s!"[{owner}] artifact refused: {e}"
      return .ok diffSummary out.result commit

/-- Run the harness and commit whatever it changed. -/
@[grind =]
def execute (tool : String) (owner : HarnessId) (doc : DocId) (params : Json)
    (author : Author) (decl : ToolDecl) : Program H ToolOutcome := do
  let json := (← get).docs.json doc
  match ← resolveHandoff owner params with
  | .error reason => return .denied reason
  | .ok handoff =>
    match ← runLogic owner fun n => H.call n owner tool params handoff json with
    | .error e => return .error e
    | .ok (.error e) =>
      auditOn doc "tool.call" (.obj [("harness", .str owner), ("tool", .str tool)]) "error"
      return .error e
    | .ok (.ok out) =>
      out.logs.forM fun line => trace s!"[{owner}] {line}"
      if !out.ok then
        return .error (out.error.getD "the harness reported a failure")
      else
        match ← applyOutput doc owner tool params author out with
        | .error e => return .error e
        | .ok (diffSummary, commit) => settleCall doc owner tool decl out diffSummary commit

/-! ### The call -/

/-- A read-only account asked for a tool that changes things. -/
def refuseReadOnly (tool harness : String) (doc : DocId) : Program H ToolOutcome := do
  auditOn doc "tool.call"
    (.obj [("harness", .str harness), ("tool", .str tool), ("why", .str "read-only account")])
    "denied"
  return .denied readOnlyReason

/-- The level a tool of a kind needs on its harness's document. -/
def ToolDecl.need (decl : ToolDecl) : Level :=
  if decl.kind = .write then .edit else .view

/-- Whether only the user can answer a call of this tool. -/
def ToolDecl.needsConfirm (decl : ToolDecl) : Bool :=
  match decl.confirm with
  | .always => true
  | .destructive => decl.kind = .write
  | .never => false

/-- What runs a call that is let through. -/
abbrev Executing (H : Host) :=
  String → HarnessId → DocId → Json → Author → ToolDecl → Program H ToolOutcome

/-- The rest of a call, once its tool, its harness and its document are known. -/
def callOnWith (exec : Executing H) (tool : String) (params : Json) (author : Author)
    (owner : Installed) (doc : DocId) (decl : ToolDecl) : Program H ToolOutcome := do
  let c ← get
  if !owner.enabled then
    return .denied s!"`{owner.id}` is disabled in this environment"
  else if c.active.isViewer && decl.kind ≠ .read then
    refuseReadOnly tool owner.id doc
  else if author = .agent && !c.activeSet.tools.any fun t => t.name = tool then
    return .denied s!"`{tool}` is not in this turn's tool set; call find_capability first"
  else
    match c.access.check c.identity doc decl.need with
    | .error denied =>
      auditOn doc "tool.call" (.obj [("harness", .str owner.id), ("tool", .str tool)]) "denied"
      return .denied denied.text
    | .ok _ =>
      match H.validateParams decl.params params with
      | .error e => return .error e
      | .ok _ =>
        if decl.needsConfirm && author = .agent then
          askApproval "confirm" .toolConfirm tool params
            s!"Allow `{tool}` with {H.render params}?"
        else exec tool owner.id doc params author decl

/-- `call_tool`, whatever runs the call. -/
def callToolWith (exec : Executing H) (tool : String) (params : Json) (author : Author) :
    Program H ToolOutcome := do
  let c ← get
  if coreToolNames.contains tool then
    if c.active.isViewer && builtinKind tool ≠ some .read then
      refuseReadOnly tool coreHarness ""
    else if author = .agent && !c.offersBuiltin tool then
      return .error s!"no tool named `{tool}` is on offer"
    else callCoreTool tool params
  else
    match c.registry.ownerOf tool with
    | none =>
      if c.offersBuiltin "find_capability" then
        return .error
          s!"no tool named `{tool}` is installed; call find_capability to look for one"
      else return .error s!"no tool named `{tool}` is installed"
    | some owner =>
      match ← docFor owner.id with
      | none => return .error s!"`{owner.id}` has no document to work on"
      | some doc =>
        match owner.tool tool with
        | none => return .error s!"`{tool}` vanished from its harness"
        | some decl => callOnWith exec tool params author owner doc decl

/-- Every tool call, from the agent, from the client, from an eval, comes through here. -/
def callTool : String → Json → Author → Program H ToolOutcome :=
  callToolWith execute

end LocalSpace
