import LocalSpace.Acl
import LocalSpace.Packages

/-!
# The world Core runs in

`Host` collects what Core calls and the model leaves open: the bundled Automerge with the
reconciliation of JSON into it, hashes, the clock and random ids, the files people attach,
the logics of the packages, the models, the gateway, and those pure functions of Core's own
whose results no property here looks into. Every theorem is for every host. Where an answer
may differ from call to call the function is given the number of the call.
-/

namespace LocalSpace

/-- What a change to a document amounts to, counted field by field. -/
structure Changes where
  added : Nat := 0
  removed : Nat := 0
  changed : Nat := 0

namespace Changes

def isEmpty (c : Changes) : Bool :=
  c.added = 0 ∧ c.removed = 0 ∧ c.changed = 0

/-- The one-line delta the model sees in a tool result. -/
def summary (c : Changes) : String :=
  if c.isEmpty then "no change"
  else
    let parts :=
      (if c.added > 0 then [s!"added {c.added}"] else []) ++
      (if c.changed > 0 then [s!"changed {c.changed}"] else []) ++
      (if c.removed > 0 then [s!"removed {c.removed}"] else [])
    ", ".intercalate parts ++ " field(s)"

end Changes

/-- What harness logic hands back from one call. -/
structure HarnessOutput where
  ok : Bool
  result : Json
  error : Option String
  diffSummary : Option String
  /-- A replacement document, if the call wrote one. -/
  doc : Option Json
  logs : List String

/-- A tool call a model's reply proposes. -/
structure ProposedCall where
  id : String
  tool : String
  params : Json

structure ChatReply where
  text : String
  calls : List ProposedCall
  completionTokens : Nat
  /-- The answer ended at the request's length limit. -/
  atLimit : Bool

/-- Why a model step ended without a reply. -/
inductive ReplyFailure where
  /-- The person stopped it. -/
  | stopped
  /-- It ended by itself: silence, or the engine gone. -/
  | cut
  /-- No room for the request at all. -/
  | noRoom
  | other

/-- What a model step ended with, handed back to Core's thread. -/
structure StepEnd where
  reply : Except ReplyFailure ChatReply
  shown : String
  thought : String
  /-- The answer, when it was stopped for saying the same stretch again and again. -/
  repeated : Option String
  /-- Nothing was read but the person's newest message. -/
  alone : Bool
  maxTokens : Nat

/-- A tool call a model wrote into its answer. -/
structure CallBlock where
  tool : String
  params : Json
  /-- The reply is nothing but the block. -/
  alone : Bool
  /-- The reply's words with the block taken out. -/
  wordsAround : String

/-- What the model is told of a call it wrote into its answer and had refused. -/
structure RefusedCall where
  id : String
  tool : String
  params : Json
  result : String

/-- What a model step's request is built of: `prompt::build_within` and the request are
functions of these. -/
structure Prompt where
  active : ActiveSet
  /-- The tools offered: none where an answer is carried on. -/
  tools : List ExposedTool
  blocks : List ContextBlock
  task : Task
  messages : List ChatMessage
  /-- The words of the answer carried on, handed to the model as the start of its reply. -/
  begun : Option String
  refused : Option RefusedCall

structure CapabilityHit where
  harness : HarnessId
  tool : String
  summary : String
  score : Json

inductive Egress where
  | allowed
  | needsApproval (domain : String)
  | denied (why : String)

structure Fetched where
  url : String
  title : String
  content : String
  bytes : Nat

/-- A package as it is staged, with its capabilities' widening over another's in words. -/
structure Staged where
  package : Installed
  /-- What it asks for that the installed one did not, line by line. -/
  widening : Option Installed → List String
  /-- A native package's stated reason. -/
  nativeReason : Option String
  /-- What it depends on and is not installed yet, in dependency order. -/
  dependencies : Registry → Except String (List String)

/-- The budgets of the model's profile that Core reads. -/
structure ModelProfile where
  toolBudgetTokens : Nat
  focusedContextTokens : Nat
  pinnedContextTokens : Nat
  contextBudgetTokens : Nat

structure Host where
  -- Automerge
  Crdt : Type
  Sync : Type
  newCrdt : Crdt
  loadCrdt : Bytes → Option Crdt
  saveCrdt : Crdt → Bytes
  crdtJson : Crdt → Json
  heads : Crdt → List String
  reconcile : Crdt → List (String × Json) → Crdt × Except String Changes
  newSync : Sync
  generate : Crdt → Sync → Option Bytes × Sync
  receive : Crdt → Sync → Bytes → Except String (Crdt × Sync)
  diffChanges : Json → Json → Changes
  -- Hashes, time, random ids, text
  blake3 : Bytes → String
  clock : Nat → Nat
  uuid : Nat → String
  encode : Json → Bytes
  render : Json → String
  fileName : String → String → String → String
  titleFrom : String → String
  -- Packages and their logic
  staged : Nat → String → Except String Staged
  lock : Registry → Json
  starts : Nat → HarnessId → Except String Unit
  call : Nat → HarnessId → String → Json → List (String × String) → Json →
    Except String HarnessOutput
  context : Nat → HarnessId → Nat → Bool → Json → Except String (String × Bool)
  view : Nat → HarnessId → String → Json → Except String Json
  event : Nat → HarnessId → String → Bytes → Json → Except String (Bytes × Option Json)
  overBudget : Nat → HarnessId → Option Nat
  widgets : Json → Except String Json
  widgetEvent : Json → Bytes
  suite : Nat → HarnessId → Except String (List String)
  -- The model and what it is offered
  reply : Nat → Prompt → StepEnd
  callBlock : String → Option CallBlock
  answerRoom : Nat
  toolCost : ExposedTool → Nat
  validateParams : Json → Json → Except String Unit
  rankCapabilities : Registry → String → List CapabilityHit
  estimateTokens : String → Nat
  truncateToBudget : String → Nat → String
  -- Attachments
  attach : Nat → UserId → ConversationId → List String → Except String (List String)
  -- The gateway
  Gateway : Type
  newGateway : Gateway
  setMode : Gateway → NetworkMode → Gateway × NetworkMode
  networkMode : Gateway → NetworkMode
  offersSearch : Gateway → Bool
  egress : Gateway → String → Egress
  hostOf : String → Option String
  approveDomain : Gateway → String → Gateway
  search : Nat → Gateway → String → Option String → Gateway × Except String Json
  fetch : Nat → Gateway → String → String → Gateway × Except String Fetched
  untrusted : String → String → String
  -- How long a request's own turns are run before they are left to the next
  patience : Nat

end LocalSpace
