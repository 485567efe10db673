import LocalSpace.Documents

/-!
# What the model is offered and shown

`exposure.rs`: the tools in this turn's active set, within the profile's budget; and
`context.rs`: the blocks the harnesses in play tell of their documents before each model
step, each within its own budget. A block is not asked for again while its document has not
changed.
-/

namespace LocalSpace

variable {H : Host}

/-! ### The active set -/

/-- `WEB_RESULTS_REACH_THE_MODEL`. -/
def webResultsReachTheModel : Bool := false

structure Exposure where
  registry : Registry
  profile : ModelProfile
  focus : Option HarnessId
  pinned : List HarnessId
  touched : List HarnessId
  network : NetworkMode
  search : Bool
  readOnly : Bool
  readOnlyHarnesses : List HarnessId

/-- `CORE_HARNESS`. -/
def coreHarness : HarnessId := "core"

/-- `CORE_TOOLS`. -/
def coreToolNames : List String :=
  ["find_capability", "web.search", "web.fetch", "task.plan", "task.note"]

/-- The kind of one of Core's own tools. -/
def builtinKind (tool : String) : Option ToolKind :=
  if tool = "find_capability" ∨ tool = "web.search" ∨ tool = "web.fetch" then some .read
  else if tool = "task.plan" ∨ tool = "task.note" then some .write
  else none

/-- A parameter schema: an object of properties, some of them required. -/
def schema (properties : List (String × Json)) (required : List String) : Json :=
  .obj [("properties", .obj properties), ("required", .arr (required.map .str)),
    ("type", .str "object")]

def stringType : Json :=
  .obj [("type", .str "string")]

def enumType (values : List String) : Json :=
  .obj [("enum", .arr (values.map .str)), ("type", .str "string")]

def builtin (name summary : String) (params : Json) (kind : ToolKind) : ExposedTool :=
  ⟨coreHarness, name, summary, params, kind, .never, false, .coreBuiltin⟩

def expose (harness : HarnessId) (reason : ExposureReason) (t : ToolDecl) : ExposedTool :=
  ⟨harness, t.name, t.summary, t.params, t.kind, t.confirm, t.undoable, reason⟩

/-- The last of the elements no other one is above. -/
def lastMax {α : Type} (le : α → α → Bool) (xs : List α) : Option α :=
  xs.foldl (fun best x =>
    match best with
    | none => some x
    | some b => if le b x then some x else some b) none

namespace Exposure

variable (e : Exposure)

/-- Whether anything with tools is installed and switched on. -/
def anythingInstalled : Bool :=
  e.registry.iter.any fun h => h.enabled && !h.tools.isEmpty

/-- Core's built-in tools; none at all while nothing is installed. -/
def coreTools : List ExposedTool :=
  if !e.anythingInstalled then []
  else
    let web := e.network ≠ .airgapped && webResultsReachTheModel
    [builtin "find_capability" "Search what is installed for a tool that meets a stated need."
        (schema [("need", stringType)] ["need"]) .read,
      builtin "task.plan"
        "Write the plan of a task that takes several steps: one step per tool, in order, with the intent of each."
        (schema [("steps", .obj [("items",
            schema [("harness", stringType), ("intent", stringType)] ["harness", "intent"]),
          ("type", .str "array")])] ["steps"]) .write,
      builtin "task.note"
        "Keep a short note in the task ledger: a decision, or an open question."
        (schema [("text", stringType)] ["text"]) .write] ++
    (if web && e.search then
      [builtin "web.search" "Search the web. Results are titles, URLs and snippets."
        (schema [("query", stringType), ("recency", enumType ["day", "week", "month", "year"]),
          ("site", stringType)] ["query"]) .read]
      else []) ++
    (if web then
      [builtin "web.fetch" "Fetch one URL and cache it in the workspace as a cited document."
        (schema [("mode", enumType ["text", "raw"]), ("url", stringType)] ["url"]) .read]
      else [])

/-- Whether one of Core's own tools is on offer to the model now. -/
def offersBuiltin (tool : String) : Bool :=
  e.coreTools.any fun t => t.name = tool

/-- Whether a tool of this kind on this harness is the caller's to see. -/
def shows (harness : HarnessId) (kind : ToolKind) : Bool :=
  if e.readOnly then kind = .read
  else kind ≠ .write || !e.readOnlyHarnesses.contains harness

/-- A package's tools among those given, as they are shown. -/
@[grind =]
def shown (h : Installed) (tools : List ToolDecl) (rank : Nat) (reason : ExposureReason) :
    List (Nat × ExposedTool) :=
  (tools.filter fun t => e.shows h.id t.kind).map fun t => (rank, expose h.id reason t)

/-- The focused harness, in full. -/
def focusedTools : List (Nat × ExposedTool) :=
  match e.focus.bind e.registry.get with
  | some h => if h.enabled then e.shown h h.tools 1 .focused else []
  | none => []

/-- A pinned harness, or one this conversation has touched: its front door only. -/
def frontDoors (h : Installed) : List (Nat × ExposedTool) :=
  if !h.enabled ∨ some h.id = e.focus then []
  else if e.pinned.contains h.id then e.shown h (h.tools.filter ToolDecl.frontDoor) 2 .pinned
  else if e.touched.contains h.id then
    e.shown h (h.tools.filter ToolDecl.frontDoor) 3 .touched
  else []

/-- Everything the model might see, each tool with its rank. -/
@[grind =]
def candidates : List (Nat × ExposedTool) :=
  ((e.coreTools.filter fun t => !e.readOnly || t.kind = .read).map fun t => (0, t)) ++
    e.focusedTools ++ e.registry.iter.flatMap e.frontDoors

/-- The cost of some tools. -/
@[grind =]
def cost (H : Host) (tools : List (Nat × ExposedTool)) : Nat :=
  (tools.map fun t => H.toolCost t.2).sum

/-- By rank, then by cost. -/
def ranksBelow (H : Host) (a b : Nat × ExposedTool) : Bool :=
  a.1 < b.1 ∨ (a.1 = b.1 ∧ H.toolCost a.2 ≤ H.toolCost b.2)

/-- The widest of the focused harness's tools, its front doors kept or not. -/
def widest (H : Host) (keepFrontDoors : Bool) (tools : List (Nat × ExposedTool)) :
    Option (Nat × String) :=
  let doors := (((e.focus.bind e.registry.get).map Installed.tools).getD []).filter
    ToolDecl.frontDoor
  let eligible := tools.zipIdx.filter fun t =>
    t.1.1 = 1 && !(keepFrontDoors && doors.any fun d => d.name = t.1.2.name)
  (lastMax (fun a b => H.toolCost a.1.2 ≤ H.toolCost b.1.2) eligible).map
    fun t => (t.2, t.1.2.name)

/-- Drop whole harnesses, lowest rank last-first, then the focused harness's widest tools,
until the rest fits. -/
@[grind =]
def fit (H : Host) : Nat → List (Nat × ExposedTool) → List String →
    List (Nat × ExposedTool) × List String
  | 0, tools, dropped => (tools, dropped)
  | n + 1, tools, dropped =>
    if cost H tools ≤ e.profile.toolBudgetTokens then (tools, dropped)
    else
      match lastMax (ranksBelow H) (tools.filter fun t => 2 ≤ t.1) with
      | some victim =>
        fit H n (tools.filter fun t => t.2.harness ≠ victim.2.harness)
          (dropped ++ [victim.2.harness])
      | none =>
        match (e.widest H true tools).or (e.widest H false tools) with
        | none => (tools, dropped)
        | some (i, name) => fit H n (tools.eraseIdx i) (dropped ++ [name])

/-- The tools the model will see this turn, plus what had to be dropped. -/
def activeSet (H : Host) : ActiveSet :=
  let r := e.fit H e.candidates.length e.candidates []
  let tools := (r.1.map Prod.snd).insertionSort fun a b =>
    a.harness < b.harness ∨ (a.harness = b.harness ∧ a.name ≤ b.name)
  { tools := tools
    tokenEstimate := (tools.map H.toolCost).sum
    budget := e.profile.toolBudgetTokens
    dropped := r.2 }

end Exposure

namespace Core

def exposure (c : Core H) : Exposure where
  registry := c.registry
  profile := c.cfg.profile
  focus := c.mine.focus
  pinned := c.mine.pinned
  touched := c.mine.touched
  network := H.networkMode c.gateway
  search := H.offersSearch c.gateway
  readOnly := c.active.isViewer
  readOnlyHarnesses := c.readOnlyHarnesses

def activeSet (c : Core H) : ActiveSet :=
  c.exposure.activeSet H

def offersBuiltin (c : Core H) (tool : String) : Bool :=
  c.exposure.offersBuiltin tool

end Core

/-! ### Context blocks -/

/-- Bring a harness's logic online, or say why it could not start. -/
def ensureRuntime (harness : HarnessId) : Program H (Except String Unit) := do
  return H.starts (← nextRead) harness

/-- The harnesses a context is gathered from besides the focused one. -/
def Core.also (c : Core H) : List HarnessId :=
  c.mine.pinned ++ c.mine.touched.filter fun t => !c.mine.pinned.contains t

/-- Bring a context provider online, where there is one. -/
def wakeProvider (harness : HarnessId) : Program H Unit := do
  match (← get).registry.get harness with
  | none => return
  | some h =>
    if h.enabled && h.contextProvider then
      match ← ensureRuntime harness with
      | .ok _ => return
      | .error e => trace s!"`{harness}` could not start for its context provider: {e}"

/-- What a provider said and whether there is more, or that it failed. -/
def providerSaid : Except String (String × Bool) → String × Bool
  | .ok said => said
  | .error e => (s!"[context provider failed: {e}]", false)

/-- What one harness tells of its document at a budget, asked anew only when the document
has changed. -/
def contextBlock (harness : HarnessId) (doc : DocId) (budget : Nat) (focused : Bool) :
    Program H (Option ContextBlock) := do
  let json := (← get).docs.json doc
  let key := (harness, ((H.blake3 (utf8 (H.render json))).take 16).toString, budget)
  match (← get).providers.lookup key with
  | some cached => return some cached
  | none =>
    let answer := providerSaid (H.context (← nextRead) harness budget focused json)
    if (trim answer.1).isEmpty then return none
    else
      let text := H.truncateToBudget answer.1 budget
      let block : ContextBlock := ⟨harness, text, H.estimateTokens text, answer.2⟩
      modify fun c => { c with providers := (key, block) :: c.providers }
      return some block

/-- The harnesses a context is gathered from, with their budgets. -/
def wantedBlocks (profile : ModelProfile) (focus : Option HarnessId) (also : List HarnessId) :
    List (HarnessId × Nat) :=
  (focus.toList.map fun f => (f, profile.focusedContextTokens)) ++
    ((also.filter fun id => some id ≠ focus).map fun id => (id, profile.pinnedContextTokens))

/-- Gather the blocks for one turn, the total capped by the profile's context budget. -/
def assemble (docIds : List (HarnessId × DocId)) :
    List (HarnessId × Nat) → Nat → Program H (List ContextBlock)
  | [], _ => return []
  | (id, budget) :: rest, spent => do
    let c ← get
    if c.cfg.profile.contextBudgetTokens ≤ spent then return []
    let budget := min budget (c.cfg.profile.contextBudgetTokens - spent)
    match (c.registry.get id).filter fun h => h.enabled && h.contextProvider,
        docIds.lookup id with
    | some _, some doc =>
      match ← contextBlock id doc budget (some id = c.mine.focus) with
      | some block => return block :: (← assemble docIds rest (spent + block.tokens))
      | none => assemble docIds rest spent
    | _, _ => assemble docIds rest spent

/-- The documents of the harnesses in play, brought in on first use. -/
def docsFor : List HarnessId → Program H (List (HarnessId × DocId))
  | [] => return []
  | id :: rest => do
    match ← docFor id with
    | some doc => return (id, doc) :: (← docsFor rest)
    | none => docsFor rest

def contextBlocks : Program H (List ContextBlock) := do
  let c ← get
  let wanted := c.mine.focus.toList ++ c.also
  wanted.forM wakeProvider
  let docIds ← docsFor wanted
  assemble docIds (wantedBlocks c.cfg.profile c.mine.focus c.also) 0

end LocalSpace
