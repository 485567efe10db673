import LocalSpace.Host

/-!
# Document storage

`docs.rs`: the live documents. A CRDT document is one of the host's Automerge documents, a
blob is its bytes. A document not brought in yet is not in the store; `restore` makes it, or
reconciles a snapshot into one that has changes already.
-/

namespace LocalSpace

inductive Doc (H : Host) where
  | crdt (am : H.Crdt)
  | blob (bytes : Bytes)

structure DocStore (H : Host) where
  docs : Table DocId (Doc H)
  kinds : Table DocId DocKind

variable {H : Host}

namespace Doc

/-- An untouched document of a kind. -/
@[grind =]
def fresh : DocKind → Doc H
  | .crdt => .crdt H.newCrdt
  | .blob => .blob []

/-- What a blob projects to. -/
def blobJson (H : Host) (bytes : Bytes) : Json :=
  .obj [("blob", .bool true), ("bytes", .num bytes.length 0), ("hash", .str (H.blake3 bytes))]

/-- JSON projection handed to harness logic and to surfaces. -/
@[grind =]
def json : Doc H → Json
  | crdt am => H.crdtJson am
  | blob bytes => blobJson H bytes

/-- Bytes for the DAG snapshot: the Automerge save form, or the blob itself. -/
def snapshot : Doc H → Bytes
  | crdt am => H.saveCrdt am
  | blob bytes => bytes

/-- Reconcile a whole-document JSON value into the document. -/
@[grind =]
def applyJson (next : Json) : Doc H → Doc H × Except String Changes
  | crdt am =>
    match next.asObject with
    | none => (crdt am, .error "a crdt document's root must be a JSON object")
    | some fields =>
      let r := H.reconcile am fields
      (crdt r.1, r.2)
  | blob bytes =>
    let encoded := H.encode next
    (blob encoded, .ok { changed := if bytes = encoded then 0 else 1 })

end Doc

namespace DocStore

@[grind =]
def new : DocStore H :=
  ⟨∅, ∅⟩

/-- One document, as it now stands. -/
@[grind =]
def put (s : DocStore H) (doc : DocId) (d : Doc H) : DocStore H :=
  { s with docs := s.docs.insert doc d }

def exists? (s : DocStore H) (doc : DocId) : Bool :=
  (s.docs.lookup doc).isSome

def ensure (s : DocStore H) (doc : DocId) (kind : DocKind) : DocStore H :=
  if s.exists? doc then s
  else ⟨s.docs.insert doc (.fresh kind), s.kinds.insert doc kind⟩

@[grind =]
def kind (s : DocStore H) (doc : DocId) : Option DocKind :=
  s.kinds.lookup doc

@[grind =]
def json (s : DocStore H) (doc : DocId) : Json :=
  match s.docs.lookup doc with
  | some d => d.json
  | none => .null

def snapshot (s : DocStore H) (doc : DocId) : Bytes :=
  match s.docs.lookup doc with
  | some d => d.snapshot
  | none => []

/-- Reconcile a JSON value into a document; what was reconciled before an error stays. -/
@[grind =]
def applyJson (s : DocStore H) (doc : DocId) (next : Json) :
    Except String Changes × DocStore H :=
  match s.docs.lookup doc with
  | none => (.error s!"unknown document `{doc}`", s)
  | some d =>
    let r := d.applyJson next
    (r.2, s.put doc r.1)

/-- The JSON projection of a saved snapshot, without touching the live document. -/
def jsonOfSnapshot (H : Host) (kind : DocKind) (bytes : Bytes) : Option Json :=
  match kind with
  | .crdt => if bytes = [] then some (.obj []) else (H.loadCrdt bytes).map H.crdtJson
  | .blob => some (Doc.blobJson H bytes)

/-- A snapshot's document, where there is none yet or none with changes. -/
@[grind =]
def loaded (bytes : Option Bytes) : Option (Doc H) :=
  match bytes with
  | some (b :: bs) => (H.loadCrdt (b :: bs)).map Doc.crdt
  | _ => some (.crdt H.newCrdt)

/-- There is nothing in the document that a snapshot would overwrite. -/
def untouched (s : DocStore H) (doc : DocId) : Bool :=
  match s.docs.lookup doc with
  | none => true
  | some (.crdt am) => (H.heads am).isEmpty
  | some (.blob _) => false

/-- Restore from a DAG snapshot. A CRDT document that already has changes is not replaced;
the snapshot's content is reconciled into it as one more change. -/
@[grind =]
def restore (s : DocStore H) (doc : DocId) (bytes : Option Bytes) :
    Except String Unit × DocStore H :=
  match (s.kind doc).getD .crdt with
  | .crdt =>
    if s.untouched doc then
      match loaded bytes with
      | none => (.error "loading crdt snapshot", s)
      | some d => (.ok (), ⟨s.docs.insert doc d, s.kinds.insert doc .crdt⟩)
    else
      match jsonOfSnapshot H .crdt (bytes.getD []) with
      | none => (.error "loading a crdt snapshot", s)
      | some target =>
        let r := s.applyJson doc target
        (r.1.map fun _ => (), r.2)
  | .blob =>
    (.ok (), ⟨s.docs.insert doc (.blob (bytes.getD [])), s.kinds.insert doc .blob⟩)

/-- Sync message for a replica: what it lacks, and its sync state after it. -/
def syncMessage (s : DocStore H) (doc : DocId) (state : H.Sync) : Option Bytes × H.Sync :=
  match s.docs.lookup doc with
  | some (.crdt am) => H.generate am state
  | _ => (none, state)

/-- Apply a sync message received from a replica: whether the document changed, the
replica's state and the document. -/
def receiveSync (s : DocStore H) (doc : DocId) (state : H.Sync) (message : Bytes) :
    Except String Bool × H.Sync × DocStore H :=
  match s.docs.lookup doc with
  | some (.crdt am) =>
    match H.receive am state message with
    | .error e => (.error e, state, s)
    | .ok r => (.ok (H.heads r.1 ≠ H.heads am), r.2, s.put doc (.crdt r.1))
  | _ => (.error s!"`{doc}` is not a crdt document", state, s)

end DocStore

end LocalSpace
