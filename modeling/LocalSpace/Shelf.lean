import Mathlib.Logic.Function.Basic
import LocalSpace.Reconcile

/-!
# Documents and their histories

What Core does to its documents request by request: `doc_for` and `restore_from_dag`, the one path
on which a tool call, a surface's event and a WriteDoc change a document, DocSync, and what an undo,
a redo or the drop of a run puts back (`docs.rs`, `dag.rs`, and the handlers of `lib.rs`). A CRDT
document is what Automerge makes of a tree, into which JSON is written as `Reconcile` has it; a
document's commits have the numbers of their places, so that no two have one id.
-/

namespace LocalSpace

namespace Shelf

/-- What documents are kept with: Automerge, and bytes. -/
structure Backend where
  Crdt : Type
  Sync : Type
  Bytes : Type
  bytesEq : DecidableEq Bytes
  new : Crdt
  root : Crdt → List (String × Node)
  /-- `get_heads`, of which there are none before the first change. -/
  heads : Crdt → List String
  /-- The changes that reconciliation made, in the document. -/
  put : Crdt → List (String × Node) → Crdt
  save : Crdt → Bytes
  load : Bytes → Option Crdt
  newSync : Sync
  receive : Crdt → Sync → Bytes → Except String (Crdt × Sync)
  serde : AutoSerde
  empty : Bytes
  isEmpty : Bytes → Bool
  encode : Json → Bytes
  /-- The projection of a blob: its length and its hash. -/
  blobJson : Bytes → Json

instance (B : Backend) : DecidableEq B.Bytes :=
  B.bytesEq

/-- What is relied on of these. -/
structure Backend.Sound (B : Backend) : Prop where
  new : B.root B.new = [] ∧ B.heads B.new = []
  /-- The keys of a document's maps ascend. -/
  ordered : ∀ am, (Node.map (B.root am)).Ordered
  put : ∀ am after, (Node.map after).Ordered → B.root (B.put am after) = after
  /-- A save is loaded as it was. -/
  saved : ∀ am, B.isEmpty (B.save am) = false ∧ ∃ am', B.load (B.save am) = some am' ∧
    B.root am' = B.root am
  empty : B.isEmpty B.empty = true
  /-- A message changes a document by new heads. -/
  received : ∀ am state message r, B.receive am state message = .ok r →
    B.heads r.1 = B.heads am → B.root r.1 = B.root am
  /-- What the projection writes of its own is as `serde_json` holds it. -/
  text : ∀ content, (B.serde.text content).Ordered
  bytes : ∀ b, (B.serde.bytes b).Ordered
  unknown : ∀ code b, (B.serde.unknown code b).Ordered

/-- A JSON value as `serde_json` holds it. -/
abbrev Value : Type :=
  { v : Json // v.Ordered }

/-! ### A document -/

inductive Held (B : Backend) where
  | crdt (am : B.Crdt)
  | blob (bytes : B.Bytes)

namespace Held

variable {B : Backend}

@[grind =]
def kind : Held B → DocKind
  | crdt _ => .crdt
  | blob _ => .blob

@[grind =]
def fresh : DocKind → Held B
  | .crdt => crdt B.new
  | .blob => blob B.empty

@[grind =]
def json : Held B → Json
  | crdt am => B.serde.json (.map (B.root am))
  | blob bytes => B.blobJson bytes

def snapshot : Held B → B.Bytes
  | crdt am => B.save am
  | blob bytes => bytes

/-- `DocStore::apply_json`, on a document that is there. -/
@[grind =]
def applyJson (next : Json) : Held B → Except String Changes × Held B
  | crdt am =>
    match next with
    | .obj fields =>
      match AutoCommit.applyJson (B.root am) (.obj fields) with
      | .error _ => (.error "an operation does not fit the document", crdt am)
      | .ok (after, changes) => (.ok changes, crdt (if changes.isEmpty then am else B.put am after))
    | _ => (.error "a crdt document's root must be a JSON object", crdt am)
  | blob bytes =>
    (.ok { changed := if bytes = B.encode next then 0 else 1 }, blob (B.encode next))

/-- `DocStore::json_of_snapshot`. -/
def jsonOfSnapshot (B : Backend) (kind : DocKind) (bytes : B.Bytes) : Option Json :=
  match kind with
  | .crdt =>
    if B.isEmpty bytes then some (.obj [])
    else (B.load bytes).map fun am => B.serde.json (.map (B.root am))
  | .blob => some (B.blobJson bytes)

/-- A snapshot's document, in the place of none and of one with no changes. -/
@[grind =]
def loaded (held : Option (Held B)) (bytes : Option B.Bytes) :
    Except String Unit × Option (Held B) :=
  match bytes with
  | none => (.ok (), some (crdt B.new))
  | some b =>
    if B.isEmpty b then (.ok (), some (crdt B.new))
    else
      match B.load b with
      | some am => (.ok (), some (crdt am))
      | none => (.error "loading crdt snapshot", held)

/-- `DocStore::restore`. A document that is not there is of no kind yet, and taken for a CRDT. -/
@[grind =]
def restore (held : Option (Held B)) (bytes : Option B.Bytes) :
    Except String Unit × Option (Held B) :=
  match held with
  | none => loaded none bytes
  | some (blob _) => (.ok (), some (blob (bytes.getD B.empty)))
  | some (crdt am) =>
    if B.heads am = [] then loaded (some (crdt am)) bytes
    else
      match jsonOfSnapshot B .crdt (bytes.getD B.empty) with
      | none => (.error "loading a crdt snapshot", some (crdt am))
      | some target =>
        let r := (crdt am).applyJson target
        (r.1.map fun _ => (), some r.2)

end Held

/-! ### A history -/

structure Commit (B : Backend) where
  parent : Option Nat
  snapshot : B.Bytes
  run : Option String

/-- A document's commits in their order, each under its number; its head; and what was undone and
may be redone, the last one first. -/
structure History (B : Backend) where
  commits : List (Commit B)
  head : Option Nat
  redo : List Nat

namespace History

variable {B : Backend} (h : History B)

@[grind =]
def empty (B : Backend) : History B :=
  ⟨[], none, []⟩

def snapshotAt (id : Nat) : Option B.Bytes :=
  (h.commits[id]?).map Commit.snapshot

/-- The bytes of the head's commit. -/
def headBytes : Option B.Bytes :=
  h.head.bind h.snapshotAt

@[grind =]
def commit (snapshot : B.Bytes) (run : Option String) : History B where
  commits := h.commits ++ [⟨h.head, snapshot, run⟩]
  head := some h.commits.length
  redo := []

theorem headBytes_commit (snapshot : B.Bytes) (run : Option String) :
    (h.commit snapshot run).headBytes = some snapshot := by
  rw [headBytes, commit, Option.bind_some, snapshotAt, List.getElem?_concat_length, Option.map_some]

/-- `Dag::undo`. -/
@[grind =]
def undo : Option (History B) :=
  h.head.bind fun id => (h.commits[id]?).map fun c =>
    { h with head := c.parent, redo := id :: h.redo }

/-- `Dag::redo`. -/
def redone : Option (History B) :=
  match h.redo with
  | [] => none
  | id :: rest => some { h with head := some id, redo := rest }

/-- `Dag::drop_run`, on one document: to before the oldest commit of the run. -/
@[grind =]
def dropRun (run : String) : Option (History B) :=
  (h.commits.find? fun c => c.run = some run).map fun first =>
    { h with head := first.parent, redo := [] }

end History

/-! ### Core -/

/-- Core's documents in memory, their histories, the documents of all commits with the newest first,
and the sync states of their replicas. -/
structure State (B : Backend) where
  docs : DocId → Option (Held B)
  history : DocId → History B
  order : List DocId
  replicas : DocId → String → Option B.Sync

inductive Response where
  | ok
  | called (result : Json)
  | error (message : String)

/-- What a harness's logic answers a call with. -/
structure Reply where
  doc : Option Value
  result : Json

/-- What Core is asked. A call is handed the content of an artifact, of a document as it is or as a
commit of its had it; a revert reaches the documents that the caller may edit. -/
inductive Request (B : Backend) where
  | openDoc (doc : DocId) (kind : DocKind)
  | callTool (doc : DocId) (kind : DocKind) (run : Option String)
      (artifact : Option (DocId × Option Nat)) (logic : Json → Option Json → Reply)
  | harnessEvent (doc : DocId) (kind : DocKind) (logic : Json → Option Value)
  | writeDoc (doc : DocId) (kind : DocKind) (next : Value) (commit : Bool)
  | docSync (doc : DocId) (peer : String) (message : B.Bytes)
  | undo (mayEdit : DocId → Bool)
  | redo (mayEdit : DocId → Bool)
  | dropRun (run : String)
  | restart

namespace State

variable {B : Backend} (s : State B)

/-- A start on a database. -/
@[grind =]
def start (history : DocId → History B) (order : List DocId) : State B where
  docs _ := none
  history := history
  order := order
  replicas _ _ := none

@[grind =]
def put (doc : DocId) (held : Option (Held B)) : State B :=
  { s with docs := Function.update s.docs doc held }

@[simp] theorem docs_put_self (doc : DocId) (held : Option (Held B)) :
    (s.put doc held).docs doc = held :=
  Function.update_self ..

theorem docs_put_ne {doc d : DocId} (h : d ≠ doc) (held : Option (Held B)) :
    (s.put doc held).docs d = s.docs d :=
  Function.update_of_ne h ..

@[simp] theorem history_put (doc : DocId) (held : Option (Held B)) :
    (s.put doc held).history = s.history :=
  rfl

/-- `DocStore::json`. -/
@[grind =]
def json (doc : DocId) : Json :=
  ((s.docs doc).map Held.json).getD .null

def setHistory (doc : DocId) (h : History B) : State B :=
  { s with history := Function.update s.history doc h }

@[simp] theorem history_setHistory_self (doc : DocId) (h : History B) :
    (s.setHistory doc h).history doc = h :=
  Function.update_self ..

theorem history_setHistory_ne {doc d : DocId} (hd : d ≠ doc) (h : History B) :
    (s.setHistory doc h).history d = s.history d :=
  Function.update_of_ne hd ..

/-- `doc_for`: a document that is not there is made, and restored to what its head records. -/
@[grind =]
def docFor (doc : DocId) (kind : DocKind) : State B :=
  match s.docs doc with
  | some _ => s
  | none =>
    match (s.history doc).headBytes with
    | none => s.put doc (some (.fresh kind))
    | some bytes => s.put doc (Held.restore (some (.fresh kind)) (some bytes)).2

/-- A document's snapshot, as a commit of its own. -/
def commitDoc (doc : DocId) (held : Held B) (run : Option String) : State B :=
  { s.setHistory doc ((s.history doc).commit held.snapshot run) with order := doc :: s.order }

@[simp] theorem docs_commitDoc (doc : DocId) (held : Held B) (run : Option String) :
    (s.commitDoc doc held run).docs = s.docs :=
  rfl

@[simp] theorem history_commitDoc_self (doc : DocId) (held : Held B) (run : Option String) :
    (s.commitDoc doc held run).history doc = (s.history doc).commit held.snapshot run :=
  Function.update_self ..

theorem history_commitDoc_ne {doc d : DocId} (hd : d ≠ doc) (held : Held B) (run : Option String) :
    (s.commitDoc doc held run).history d = s.history d :=
  Function.update_of_ne hd ..

/-- A JSON value written into a document, and committed where that changes it. -/
@[grind =]
def write (doc : DocId) (next : Json) (commit : Bool) (run : Option String) :
    Except String Bool × State B :=
  match s.docs doc with
  | none => (.error s!"unknown document `{doc}`", s)
  | some held =>
    let r := held.applyJson next
    match r.1 with
    | .error e => (.error e, s.put doc (some r.2))
    | .ok changes =>
      if changes.isEmpty then (.ok false, s.put doc (some r.2))
      else if commit then (.ok true, (s.put doc (some r.2)).commitDoc doc r.2 run)
      else (.ok true, s.put doc (some r.2))

/-- `resolve_handoff`: the content an artifact is of. -/
def handedOver : DocId × Option Nat → Except String Json
  | (doc, none) => .ok (s.json doc)
  | (doc, some id) =>
    match (s.history doc).snapshotAt id with
    | none => .error "the commit is not in the DAG"
    | some bytes =>
      .ok ((Held.jsonOfSnapshot B (((s.docs doc).map Held.kind).getD .crdt) bytes).getD .null)

/-- `execute`. -/
@[grind =]
def execute (doc : DocId) (run : Option String) (content : Option Json)
    (logic : Json → Option Json → Reply) : Response × State B :=
  let reply := logic (s.json doc) content
  match reply.doc with
  | none => (.called reply.result, s)
  | some next =>
    let r := s.write doc next true run
    match r.1 with
    | .error e => (.error e, r.2)
    | .ok _ => (.called reply.result, r.2)

def callTool (doc : DocId) (run : Option String) (artifact : Option (DocId × Option Nat))
    (logic : Json → Option Json → Reply) : Response × State B :=
  match artifact with
  | none => s.execute doc run none logic
  | some a =>
    match s.handedOver a with
    | .error e => (.error e, s)
    | .ok content => s.execute doc run (some content) logic

/-- A surface's event: what the logic wants changed is written where that can be. -/
def harnessEvent (doc : DocId) (logic : Json → Option Value) : Response × State B :=
  match logic (s.json doc) with
  | none => (.ok, s)
  | some next => (.ok, (s.write doc next true none).2)

def writeDoc (doc : DocId) (next : Value) (commit : Bool) : Response × State B :=
  let r := s.write doc next commit none
  match r.1 with
  | .error e => (.error e, r.2)
  | .ok _ => (.ok, r.2)

def setReplica (doc : DocId) (peer : String) (state : B.Sync) : State B :=
  { s with replicas :=
      Function.update s.replicas doc (Function.update (s.replicas doc) peer (some state)) }

/-- `Request::DocSync`. -/
@[grind =]
def docSync (doc : DocId) (peer : String) (message : B.Bytes) : Response × State B :=
  let state := (s.replicas doc peer).getD B.newSync
  match s.docs doc with
  | some (.crdt am) =>
    match B.receive am state message with
    | .error e => (.error e, s.setReplica doc peer state)
    | .ok (am', state') =>
      let t := (s.put doc (some (.crdt am'))).setReplica doc peer state'
      if B.heads am' = B.heads am then (.ok, t) else (.ok, t.commitDoc doc (.crdt am') none)
  | _ => (.error s!"`{doc}` is not a crdt document", s.setReplica doc peer state)

/-- `apply_revert`, to what a history's head records. -/
@[grind =]
def applyRevert (doc : DocId) (h : History B) : Response × State B :=
  let r := Held.restore (s.docs doc) h.headBytes
  match r.1 with
  | .error e => (.error e, (s.setHistory doc h).put doc r.2)
  | .ok _ => (.ok, (s.setHistory doc h).put doc r.2)

/-- `undoable_doc`. -/
def undoableDoc (mayEdit : DocId → Bool) : Option DocId :=
  (s.order.take 200).find? mayEdit

@[grind =]
def undo (mayEdit : DocId → Bool) : Response × State B :=
  match s.undoableDoc mayEdit with
  | none => (.error "nothing to undo", s)
  | some doc =>
    match (s.history doc).undo with
    | none => (.error "nothing to undo", s)
    | some h => s.applyRevert doc h

@[grind =]
def redo (mayEdit : DocId → Bool) : Response × State B :=
  match s.undoableDoc mayEdit with
  | none => (.error "nothing to redo", s)
  | some doc =>
    match (s.history doc).redone with
    | none => (.error "nothing to redo", s)
    | some h => s.applyRevert doc h

/-- Every document the run touched goes back; what one of them fails with is not answered. -/
@[grind =]
def dropRun (run : String) : Response × State B :=
  if s.order.any fun doc => ((s.history doc).dropRun run).isSome then
    (.ok, { s with
      docs := fun doc =>
        match (s.history doc).dropRun run with
        | none => s.docs doc
        | some h => (Held.restore (s.docs doc) h.headBytes).2
      history := fun doc => ((s.history doc).dropRun run).getD (s.history doc) })
  else (.error s!"no commits belong to run `{run}`", s)

/-- What Core answers, and what it is afterwards. -/
@[grind =]
def handle : Request B → Response × State B
  | .openDoc doc kind => (.ok, s.docFor doc kind)
  | .callTool doc kind run artifact logic => (s.docFor doc kind).callTool doc run artifact logic
  | .harnessEvent doc kind logic => (s.docFor doc kind).harnessEvent doc logic
  | .writeDoc doc kind next commit => (s.docFor doc kind).writeDoc doc next commit
  | .docSync doc peer message => s.docSync doc peer message
  | .undo mayEdit => s.undo mayEdit
  | .redo mayEdit => s.redo mayEdit
  | .dropRun run => s.dropRun run
  | .restart => (.ok, start s.history s.order)

end State

/-! ### Documents kept as they are -/

/-- A document whose maps' keys ascend. -/
abbrev Tree : Type :=
  { root : List (String × Node) // (Node.map root).Ordered }

open Classical in
/-- Documents kept as they are, with whether they have changed, and bytes that are nothing or a
save. -/
noncomputable def plain : Backend where
  Crdt := Tree × Bool
  Sync := Unit
  Bytes := Option (Tree × Bool)
  bytesEq := inferInstance
  new := (⟨[], .map .nil nofun⟩, false)
  root am := am.1.1
  heads am := if am.2 then ["head"] else []
  put am after := if h : (Node.map after).Ordered then (⟨after, h⟩, true) else am
  save am := some am
  load bytes := bytes
  newSync := ()
  receive _ _ _ := .error "no message"
  serde := AutoSerde.plainly
  empty := none
  isEmpty bytes := bytes.isNone
  encode _ := none
  blobJson _ := .obj [("blob", .bool true), ("bytes", .num 0 0), ("hash",
    .str "af1349b9f5f9a1a6a0404dea36dcc9499bcb25c9adc112b7cc9a93cae41f3262")]

theorem plain_sound : plain.Sound where
  new := ⟨rfl, rfl⟩
  ordered am := am.1.2
  put am after h := by
    have hput : plain.put am after = (⟨after, h⟩, true) := dif_pos h
    rw [hput]
    rfl
  saved am := ⟨rfl, am, rfl, rfl⟩
  empty := rfl
  received _ _ _ _ h := nomatch h
  text content := .str content
  bytes b := by
    refine .arr fun v hv => ?_
    obtain ⟨n, -, rfl⟩ := List.mem_map.mp hv
    exact .num _ _
  unknown _ _ := .null

end Shelf

end LocalSpace
