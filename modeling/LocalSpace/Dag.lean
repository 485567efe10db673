import Mathlib.Data.List.Dedup
import LocalSpace.Host

/-!
# The version DAG

`dag.rs`: commits, their append order, the blobs they point to by content, and for each
document its head and what can be redone. `order` is kept newest first, the order in which
`history` reads it; `redo` is a stack, its top first.
-/

namespace LocalSpace

structure Dag where
  commits : Table CommitId Commit
  order : List CommitId
  blobs : Table String Bytes
  heads : Table DocId CommitId
  redos : Table DocId (List CommitId)

/-- What a revert asks the caller to restore; no bytes means "before any commit". -/
structure Revert where
  doc : DocId
  bytes : Option Bytes
  summary : String

/-- The UTF-8 bytes of a text. -/
def utf8 (s : String) : Bytes :=
  s.toByteArray.toList

namespace Dag

variable (H : Host)

@[grind =]
def empty : Dag :=
  ⟨∅, [], ∅, ∅, ∅⟩

@[grind =]
def head (dag : Dag) (doc : DocId) : Option CommitId :=
  dag.heads.lookup doc

@[grind =]
def getCommit (dag : Dag) (id : CommitId) : Option Commit :=
  dag.commits.lookup id

def getBlob (dag : Dag) (hash : String) : Option Bytes :=
  dag.blobs.lookup hash

/-- A commit's id: a hash of the document, the tool, the content, the parent and the time. -/
def commitId (doc : DocId) (tool docHash : String) (parent : Option CommitId) (nowMs : Nat) :
    CommitId :=
  let parentText := match parent with
    | some p => s!"Some(\"{p}\")"
    | none => "None"
  "c" ++ ((H.blake3 (utf8 s!"{doc}{tool}{docHash}{parentText}{nowMs}")).take 12).toString

/-- What a commit records but for its parent and its place in the history. -/
structure Entry where
  doc : DocId
  harness : HarnessId
  tool : String
  params : Json
  bytes : Bytes
  diffSummary : String
  author : Author
  run : Option String

/-- Record a mutation: the commit, and the DAG with it as the document's head. -/
@[grind =]
def commit (dag : Dag) (e : Entry) (idNow atNow : Nat) : Commit × Dag :=
  let docHash := H.blake3 e.bytes
  let parent := dag.head e.doc
  let c : Commit :=
    { id := commitId H e.doc e.tool docHash parent idNow
      parent := parent
      doc := e.doc
      harness := e.harness
      tool := e.tool
      params := e.params
      docHash := docHash
      diffSummary := e.diffSummary
      author := e.author
      atMs := atNow
      run := e.run }
  (c,
    { commits := dag.commits.insert c.id c
      order := c.id :: dag.order
      blobs := dag.blobs.insert docHash e.bytes
      heads := dag.heads.insert e.doc c.id
      redos := dag.redos.erase e.doc })

/-- The newest commits, newest first; at least one when there is one. -/
@[grind =]
def history (dag : Dag) (limit : Nat) : List Commit :=
  (dag.order.filterMap dag.getCommit).take (max limit 1)

/-- All of them: `history(usize::MAX)`. -/
@[grind =]
def all (dag : Dag) : List Commit :=
  dag.order.filterMap dag.getCommit

/-- `doc`'s head, moved to a commit or taken away. -/
def setHead (dag : Dag) (doc : DocId) (target : Option CommitId) : Dag :=
  { dag with heads := match target with
      | some p => dag.heads.insert doc p
      | none => dag.heads.erase doc }

/-- Move `doc`'s head to its parent and hand back the bytes to restore. -/
@[grind =]
def undo (dag : Dag) (doc : DocId) : Except String (Revert × Dag) :=
  match dag.head doc with
  | none => .error "nothing to undo"
  | some headId =>
    match dag.getCommit headId with
    | none => .error s!"commit {headId} missing from the DAG"
    | some head =>
      let moved := dag.setHead doc head.parent
      let dag' : Dag :=
        { moved with
          redos := moved.redos.insert doc (headId :: (moved.redos.lookup doc).getD []) }
      let summary := s!"undid: {head.diffSummary}"
      match head.parent with
      | none => .ok (⟨doc, none, summary⟩, dag')
      | some p =>
        match dag.getCommit p with
        | none => .error s!"parent {p} missing from the DAG"
        | some parent => .ok (⟨doc, dag.getBlob parent.docHash, summary⟩, dag')

/-- Put back what was undone last. The head has moved also where the commit is missing. -/
@[grind =]
def redo (dag : Dag) (doc : DocId) : Except String Revert × Dag :=
  match (dag.redos.lookup doc).getD [] with
  | [] => (.error "nothing to redo", dag)
  | id :: rest =>
    let moved := dag.setHead doc (some id)
    let dag' : Dag := { moved with redos := moved.redos.insert doc rest }
    match dag.getCommit id with
    | none => (.error s!"commit {id} missing from the DAG", dag')
    | some c => (.ok ⟨doc, dag.getBlob c.docHash, s!"redid: {c.diffSummary}"⟩, dag')

/-- A list of names without repetitions, in their order: `sort` and `dedup`. -/
def sortDedup (names : List String) : List String :=
  (names.insertionSort (· ≤ ·)).dedup

theorem mem_sortDedup {name : String} {names : List String} :
    name ∈ sortDedup names ↔ name ∈ names := by
  unfold sortDedup
  rw [List.mem_dedup, List.mem_insertionSort]

/-- One document of a dropped run: its head goes to before the run's oldest commit on it. -/
def dropDoc (all : List Commit) (run : String) (dag : Dag) (doc : DocId) : Revert × Dag :=
  let mine := all.filter fun c => c.run = some run ∧ c.doc = doc
  let parent := mine.getLast?.bind Commit.parent
  let bytes := (parent.bind dag.getCommit).bind fun p => dag.getBlob p.docHash
  let moved := dag.setHead doc parent
  (⟨doc, bytes, s!"dropped run {run}: {mine.length} commits"⟩,
    { moved with redos := moved.redos.erase doc })

/-- Drop an entire agent run: each document it touched, to the state it had before. -/
@[grind =]
def dropRun (dag : Dag) (run : String) : Except String (List Revert × Dag) :=
  let all := dag.all
  let inRun := all.filter fun c => c.run = some run
  if inRun.isEmpty then .error s!"no commits belong to run `{run}`"
  else .ok ((sortDedup (inRun.map Commit.doc)).foldl
    (fun (acc : List Revert × Dag) doc =>
      let r := dropDoc all run acc.2 doc
      (acc.1 ++ [r.1], r.2))
    ([], dag))

end Dag

end LocalSpace
