import Mathlib.Algebra.BigOperators.Group.List.Basic
import Mathlib.Algebra.Order.Ring.Int
import Mathlib.Data.List.AList
import Mathlib.Data.List.Sort

/-!
# The protocol's data

The data Core is asked for, keeps and hands out: JSON values, commits, tool outcomes, chats,
the task ledger and its artifacts, requests, responses and events (`localspace-proto`). Ids
are strings, as on the wire. A request that reaches nothing of the state modelled here is
one of `Request.other`.
-/

namespace LocalSpace

abbrev UserId := String
abbrev WorkspaceId := String
abbrev ConversationId := String
abbrev HarnessId := String
abbrev DocId := String
abbrev CommitId := String
abbrev Bytes := List UInt8

/-- A table of the database, or a map of Core's. -/
abbrev Table (K V : Type) [DecidableEq K] := AList fun _ : K => V

/-! ### Text -/

/-- `char::is_whitespace`: Unicode's white space. -/
def isWhitespace (c : Char) : Bool :=
  (0x09 ≤ c.toNat ∧ c.toNat ≤ 0x0D) ∨ (0x2000 ≤ c.toNat ∧ c.toNat ≤ 0x200A) ∨
    [0x20, 0x85, 0xA0, 0x1680, 0x2028, 0x2029, 0x202F, 0x205F, 0x3000].contains c.toNat

/-- `str::trim`. -/
def trim (s : String) : String :=
  String.ofList ((s.toList.dropWhile isWhitespace).reverse.dropWhile isWhitespace).reverse

/-- `str::parse::<u32>`. -/
def parseU32 (s : String) : Option Nat :=
  let digits := match s.toList with
    | '+' :: rest => rest
    | all => all
  if digits.isEmpty || !digits.all Char.isDigit then none
  else (some (digits.foldl (fun n d => n * 10 + (d.toNat - 48)) 0)).filter fun n => n < 2 ^ 32

/-! ### JSON -/

/-- A JSON value; a number is a mantissa with a decimal exponent. -/
inductive Json where
  | null
  | bool (b : Bool)
  | num (mantissa exponent : Int)
  | str (s : String)
  | arr (items : List Json)
  | obj (fields : List (String × Json))

namespace Json

/-- `Value::get` with a key. -/
@[grind =]
def get? (key : String) : Json → Option Json
  | obj fields => fields.lookup key
  | _ => none

@[grind =]
def asStr : Json → Option String
  | str s => some s
  | _ => none

def asArray : Json → Option (List Json)
  | arr items => some items
  | _ => none

def asObject : Json → Option (List (String × Json))
  | obj fields => some fields
  | _ => none

def isNull : Json → Bool
  | null => true
  | _ => false

/-- The text at a key, or `default`. -/
def strAt (j : Json) (key : String) (default : String) : String :=
  ((j.get? key).bind asStr).getD default

/-- `Map::insert` in a map sorted by key. -/
def insertField (key : String) (value : Json) : List (String × Json) → List (String × Json)
  | [] => [(key, value)]
  | (k, v) :: rest =>
    if key = k then (key, value) :: rest
    else if key < k then (key, value) :: (k, v) :: rest
    else (k, v) :: insertField key value rest

end Json

/-! ### Roles, documents, tools -/

inductive UserRole where
  | admin | member | viewer
  deriving DecidableEq, Repr

def UserRole.label : UserRole → String
  | admin => "admin"
  | member => "member"
  | viewer => "viewer"

inductive DocKind where
  | crdt | blob
  deriving DecidableEq, Repr

inductive Author where
  | user | agent | harness
  deriving DecidableEq, Repr

inductive ToolKind where
  | read | write | compute
  deriving DecidableEq, Repr

inductive Confirm where
  | never | destructive | always
  deriving DecidableEq, Repr

def Confirm.label : Confirm → String
  | never => "never"
  | destructive => "destructive"
  | always => "always"

inductive NetworkMode where
  | airgapped | ask | online
  deriving DecidableEq, Repr

def NetworkMode.label : NetworkMode → String
  | airgapped => "airgapped"
  | ask => "ask"
  | online => "online"

structure Commit where
  id : CommitId
  parent : Option CommitId
  doc : DocId
  harness : HarnessId
  tool : String
  params : Json
  docHash : String
  diffSummary : String
  author : Author
  atMs : Nat
  run : Option String

inductive ToolOutcome where
  | ok (diffSummary : String) (result : Json) (commit : Option CommitId)
  | denied (reason : String)
  | awaitingConfirm (prompt : String)
  | declined (prompt : String)
  | error (message : String)

/-- The call waits for the person's answer. -/
def ToolOutcome.awaiting : ToolOutcome → Bool
  | awaitingConfirm _ => true
  | _ => false

/-- The call was refused or failed. -/
def ToolOutcome.failed : ToolOutcome → Bool
  | error _ => true
  | denied _ => true
  | _ => false

/-- Why a tool is in context this turn. -/
inductive ExposureReason where
  | coreBuiltin | focused | pinned | touched
  deriving DecidableEq, Repr

structure ExposedTool where
  harness : HarnessId
  name : String
  summary : String
  params : Json
  kind : ToolKind
  confirm : Confirm
  undoable : Bool
  reason : ExposureReason

structure ActiveSet where
  tools : List ExposedTool
  tokenEstimate : Nat
  budget : Nat
  dropped : List String

structure ContextBlock where
  harness : HarnessId
  text : String
  tokens : Nat
  expandable : Bool

/-! ### Chats -/

inductive Role where
  | user | assistant | tool
  deriving DecidableEq, Repr

inductive CutShort where
  | repeated | length | chatFull | tooLong | failed
  deriving DecidableEq, Repr

structure ToolCallRecord where
  id : String
  tool : String
  params : Json
  outcome : ToolOutcome

structure ChatMessage where
  role : Role
  content : String
  toolCalls : List ToolCallRecord
  stopped : Bool
  thinking : String
  cutShort : Option CutShort
  attachments : List String

inductive TurnState where
  | waitsForAnotherChat | waitsForTheModel | writing | awaitsApproval | done | stopped | cut
  deriving DecidableEq, Repr

/-! ### The task ledger -/

inductive StepStatus where
  | pending | active | done | failed
  deriving DecidableEq, Repr

structure Step where
  harness : HarnessId
  intent : String
  status : StepStatus

structure ArtifactFile where
  name : String
  mime : String
  bytes : Nat

structure Artifact where
  id : String
  kind : String
  doc : DocId
  commit : CommitId
  summary : String
  producedBy : HarnessId
  fields : Json
  file : Option ArtifactFile

structure Task where
  id : String := ""
  goal : String := ""
  plan : List Step := []
  artifacts : List Artifact := []
  notes : List String := []

/-! ### What a document is listed as -/

inductive DocumentSource where
  | harness (harness : HarnessId)
  | export (harness : HarnessId) (document : DocId) (commit : CommitId)

structure DocumentInfo where
  id : DocId
  title : String
  kind : DocKind
  mime : String
  bytes : Option Nat
  hash : String
  head : Option CommitId
  source : DocumentSource
  createdMs : Nat

end LocalSpace
