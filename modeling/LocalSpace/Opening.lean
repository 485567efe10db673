import LocalSpace.Shelf

/-!
# Bringing a document in

OpenDoc and GetDocJson bring a document in; some requests bring the document they are about in
themselves (`doc_for`), others reach it by its id and take one that is not in memory as unknown, as
empty, or as of the default kind. Where no request of these comes for a document that is not in
memory, a run answers the same whether the document was brought in before or not, and leaves every
document and every head the same (`opening_invisible`).
-/

namespace LocalSpace

namespace Shelf

variable {B : Backend}

/-! ### Answers -/

namespace State

/-- What Core answers one request after the other. -/
@[grind =]
def answers (s : State B) : List (Request B) → List Response
  | [] => []
  | r :: rest => (s.handle r).1 :: answers (s.handle r).2 rest

/-- What Core is after them. -/
@[grind =]
def after (s : State B) : List (Request B) → State B
  | [] => s
  | r :: rest => after (s.handle r).2 rest

/-- A document's JSON as GetDocJson answers it. -/
@[grind =]
def shown (s : State B) (kinds : DocId → DocKind) (doc : DocId) : Json :=
  (s.docFor doc (kinds doc)).json doc

/-- A request that reaches a document by its id, without bringing it in, to more than an answer that
is the same for every document that is not a CRDT. -/
def Reaches (s : State B) (kinds : DocId → DocKind) (d : DocId) : Request B → Prop
  | .docSync doc _ _ => doc = d ∧ kinds d = .crdt
  | .undo mayEdit => s.undoableDoc mayEdit = some d ∧ (s.history d).undo ≠ none
  | .redo mayEdit => s.undoableDoc mayEdit = some d ∧ (s.history d).redone ≠ none
  | .dropRun run => (s.history d).dropRun run ≠ none
  | .callTool doc _ _ (some (of, commit)) _ =>
    doc ≠ d ∧ of = d ∧ (commit = none ∨ kinds d ≠ .crdt)
  | _ => False

/-- No request of a run reaches the document while it is not in memory. -/
def Spares (kinds : DocId → DocKind) (d : DocId) : State B → List (Request B) → Prop
  | _, [] => True
  | s, r :: rest =>
    (s.docs d = none → ¬s.Reaches kinds d r) ∧ Spares kinds d (s.handle r).2 rest

end State

/-- The document that a request brings in before all else. -/
def Request.brings : Request B → Option DocId
  | .openDoc doc _ | .callTool doc .. | .harnessEvent doc .. | .writeDoc doc .. => some doc
  | _ => none

/-- A document is brought in of its harness's kind. -/
def Request.OfKind (kinds : DocId → DocKind) : Request B → Prop
  | .openDoc doc kind | .callTool doc kind .. | .harnessEvent doc kind _ | .writeDoc doc kind .. =>
    kind = kinds doc
  | _ => True

/-! ### What is done to other documents -/

section Apart

variable {α β : Type} {s : State B} {d e : DocId} {held : Held B}

/-- A piece of code that goes the same whether a document is in memory or not, and leaves it. -/
structure Apart (s : State B) (d : DocId) (held : Held B) (f : State B → α × State B) : Prop where
  answer : (f (s.put d (some held))).1 = (f s).1
  state : (f (s.put d (some held))).2 = (f s).2.put d (some held)
  docs : (f s).2.docs d = s.docs d
  history : (f s).2.history d = s.history d

theorem put_comm (hd : e ≠ d) (x y : Option (Held B)) :
    (s.put d x).put e y = (s.put e y).put d x := by
  unfold State.put
  dsimp only
  rw [Function.update_comm hd]

theorem apart_const (a : α) : Apart s d held fun s => (a, s) :=
  ⟨rfl, rfl, rfl, rfl⟩

theorem docFor_apart (hd : e ≠ d) (kind : DocKind) :
    Apart s d held fun s => ((), s.docFor e kind) := by
  have hdocs : (s.put d (some held)).docs e = s.docs e := s.docs_put_ne hd _
  refine ⟨rfl, ?_, ?_, ?_⟩
  · unfold State.docFor
    rw [hdocs, State.history_put]
    split
    · rfl
    · split
      · exact put_comm hd _ _
      · exact put_comm hd _ _
  · unfold State.docFor
    dsimp only
    split
    · rfl
    · split
      · exact s.docs_put_ne hd.symm _
      · exact s.docs_put_ne hd.symm _
  · unfold State.docFor
    dsimp only
    split
    · rfl
    · split
      · rfl
      · rfl

/-- One piece of code after the other. -/
theorem Apart.next {f : State B → α × State B} {g : State B → β × State B} (hf : Apart s d held f)
    (hg : Apart (f s).2 d held g) : Apart s d held fun s => g (f s).2 := by
  refine ⟨?_, ?_, hg.docs.trans hf.docs, hg.history.trans hf.history⟩
  · rw [hf.state]
    exact hg.answer
  · rw [hf.state]
    exact hg.state

theorem commitDoc_put (held' : Held B) (run : Option String) (x : Option (Held B)) :
    (s.put d x).commitDoc e held' run = (s.commitDoc e held' run).put d x :=
  rfl

theorem json_put (hd : e ≠ d) (x : Option (Held B)) : (s.put d x).json e = s.json e := by
  rw [State.json, State.docs_put_ne _ hd, State.json]

theorem write_apart (hd : e ≠ d) (next : Json) (commit : Bool) (run : Option String) :
    Apart s d held fun s => s.write e next commit run := by
  have hdocs : (s.put d (some held)).docs e = s.docs e := s.docs_put_ne hd _
  constructor
  · unfold State.write
    rw [hdocs]
    split
    · rfl
    · dsimp only
      split
      · rfl
      · split
        · rfl
        · split <;> rfl
  · unfold State.write
    rw [hdocs]
    split
    · rfl
    · dsimp only
      split
      · exact put_comm hd _ _
      · split
        · exact put_comm hd _ _
        · split
          · dsimp only
            rw [put_comm hd, commitDoc_put]
          · exact put_comm hd _ _
  · unfold State.write
    dsimp only
    split
    · rfl
    · split
      · exact s.docs_put_ne hd.symm _
      · split
        · exact s.docs_put_ne hd.symm _
        · split
          · exact s.docs_put_ne hd.symm _
          · exact s.docs_put_ne hd.symm _
  · unfold State.write
    dsimp only
    split
    · rfl
    · split
      · rfl
      · split
        · rfl
        · split
          · exact State.history_commitDoc_ne _ hd.symm _ _
          · rfl

/-- A call whose reply has a document writes it. -/
theorem execute_writes {run : Option String} {content : Option Json}
    {logic : Json → Option Json → Reply} {next : Value}
    (hreply : (logic (s.json e) content).doc = some next) :
    s.execute e run content logic = (match (s.write e next true run).1 with
      | .error e => .error e
      | .ok _ => .called (logic (s.json e) content).result, (s.write e next true run).2) := by
  rw [State.execute]
  dsimp only
  rw [hreply]
  dsimp only
  rcases s.write e next.1 true run with ⟨_ | _, after⟩ <;> rfl

theorem execute_apart (hd : e ≠ d) (run : Option String) (content : Option Json)
    (logic : Json → Option Json → Reply) :
    Apart s d held fun s => s.execute e run content logic := by
  have hjson := json_put (s := s) hd (some held)
  cases hreply : (logic (s.json e) content).doc with
  | none =>
    have hleft : ∀ t : State B, t.json e = s.json e →
        t.execute e run content logic = (.called (logic (s.json e) content).result, t) := by
      intro t ht
      rw [State.execute, ht]
      dsimp only
      rw [hreply]
    constructor
    · rw [hleft _ hjson, hleft _ rfl]
    · rw [hleft _ hjson, hleft _ rfl]
    · rw [hleft _ rfl]
    · rw [hleft _ rfl]
  | some next =>
    have hput := (congrArg (fun json => (logic json content).doc) hjson).trans hreply
    have hwrite : Apart s d held fun s => s.write e next.1 true run :=
      write_apart hd next.1 true run
    constructor
    · rw [execute_writes hput, execute_writes hreply, hjson]
      dsimp only
      rw [hwrite.answer]
    · rw [execute_writes hput, execute_writes hreply]
      exact hwrite.state
    · rw [execute_writes hreply]
      exact hwrite.docs
    · rw [execute_writes hreply]
      exact hwrite.history

/-- What is handed over of a document that is not in memory is as of a CRDT that is, at a commit. -/
theorem handedOver_put (hnone : s.docs d = none) {a : DocId × Option Nat}
    (ha : a.1 = d → a.2 ≠ none ∧ held.kind = .crdt) :
    (s.put d (some held)).handedOver a = s.handedOver a := by
  obtain ⟨of, commit⟩ := a
  by_cases hof : of = d
  · obtain ⟨hcommit, hkind⟩ := ha hof
    subst hof
    cases commit with
    | none => exact absurd rfl hcommit
    | some id =>
      rw [State.handedOver, State.handedOver, State.history_put, State.docs_put_self, hnone,
        Option.map_some, hkind]
      rfl
  · cases commit with
    | none =>
      rw [State.handedOver, State.handedOver]
      rw [json_put hof]
    | some id =>
      rw [State.handedOver, State.handedOver, State.history_put, State.docs_put_ne _ hof]

theorem callTool_apart (hd : e ≠ d) (hnone : s.docs d = none) (run : Option String)
    {artifact : Option (DocId × Option Nat)} (logic : Json → Option Json → Reply)
    (ha : ∀ a ∈ artifact, a.1 = d → a.2 ≠ none ∧ held.kind = .crdt) :
    Apart s d held fun s => s.callTool e run artifact logic := by
  cases artifact with
  | none => exact execute_apart hd run none logic
  | some a =>
    have hsame : (s.put d (some held)).handedOver a = s.handedOver a :=
      handedOver_put hnone (ha a rfl)
    cases hhanded : s.handedOver a with
    | error x =>
      have hleft : ∀ t : State B, t.handedOver a = .error x →
          t.callTool e run (some a) logic = (.error x, t) := by
        intro t ht
        unfold State.callTool
        dsimp only
        rw [ht]
      have hput := hleft _ (hsame.trans hhanded)
      have hself := hleft _ hhanded
      exact ⟨by rw [hput, hself], by rw [hput, hself], by rw [hself], by rw [hself]⟩
    | ok content =>
      have hright : ∀ t : State B, t.handedOver a = .ok content →
          t.callTool e run (some a) logic = t.execute e run (some content) logic := by
        intro t ht
        unfold State.callTool
        dsimp only
        rw [ht]
      have hput := hright _ (hsame.trans hhanded)
      have hself := hright _ hhanded
      have hexecute : Apart s d held fun s => s.execute e run (some content) logic :=
        execute_apart hd run (some content) logic
      exact ⟨by rw [hput, hself]; exact hexecute.answer, by rw [hput, hself]; exact hexecute.state,
        by rw [hself]; exact hexecute.docs, by rw [hself]; exact hexecute.history⟩

theorem harnessEvent_apart (hd : e ≠ d) (logic : Json → Option Value) :
    Apart s d held fun s => s.harnessEvent e logic := by
  have hjson := json_put (s := s) hd (some held)
  cases hlogic : logic (s.json e) with
  | none =>
    have hleft : ∀ t : State B, t.json e = s.json e → t.harnessEvent e logic = (.ok, t) := by
      intro t ht
      rw [State.harnessEvent, ht, hlogic]
    have hself := hleft s rfl
    have hput := hleft _ hjson
    exact ⟨by rw [hput, hself], by rw [hput, hself], by rw [hself], by rw [hself]⟩
  | some next =>
    have hwritten : ∀ t : State B, t.json e = s.json e →
        t.harnessEvent e logic = (.ok, (t.write e next true none).2) := by
      intro t ht
      rw [State.harnessEvent, ht, hlogic]
    have hself := hwritten s rfl
    have hput := hwritten _ hjson
    have hwrite : Apart s d held fun s => s.write e next.1 true none :=
      write_apart hd next.1 true none
    exact ⟨by rw [hput, hself], by rw [hput, hself]; exact hwrite.state,
      by rw [hself]; exact hwrite.docs, by rw [hself]; exact hwrite.history⟩

theorem writeDoc_answers (s : State B) (next : Value) (commit : Bool) : s.writeDoc e next commit =
    (match (s.write e next commit none).1 with
      | .error e => .error e
      | .ok _ => .ok, (s.write e next commit none).2) := by
  unfold State.writeDoc
  rcases s.write e next.1 commit none with ⟨_ | _, after⟩ <;> rfl

theorem writeDoc_apart (hd : e ≠ d) (next : Value) (commit : Bool) :
    Apart s d held fun s => s.writeDoc e next commit := by
  have hwrite : Apart s d held fun s => s.write e next.1 commit none :=
    write_apart hd next.1 commit none
  exact ⟨by rw [writeDoc_answers, writeDoc_answers]; dsimp only; rw [hwrite.answer],
    by rw [writeDoc_answers, writeDoc_answers]; exact hwrite.state,
    by rw [writeDoc_answers]; exact hwrite.docs, by rw [writeDoc_answers]; exact hwrite.history⟩

theorem docSync_apart (hd : e ≠ d) (peer : String) (message : B.Bytes) :
    Apart s d held fun s => s.docSync e peer message := by
  have hdocs : (s.put d (some held)).docs e = s.docs e := s.docs_put_ne hd _
  have hreplicas : (s.put d (some held)).replicas = s.replicas := rfl
  constructor
  · unfold State.docSync
    rw [hdocs, hreplicas]
    dsimp only
    split
    · split
      · rfl
      · split <;> rfl
    · rfl
  · unfold State.docSync
    rw [hdocs, hreplicas]
    dsimp only
    split
    · split
      · rfl
      · split
        · dsimp only
          rw [put_comm hd]
          rfl
        · dsimp only
          rw [put_comm hd]
          rfl
    · rfl
  · unfold State.docSync
    dsimp only
    split
    · split
      · rfl
      · split
        · exact s.docs_put_ne hd.symm _
        · exact s.docs_put_ne hd.symm _
    · rfl
  · unfold State.docSync
    dsimp only
    split
    · split
      · rfl
      · split
        · rfl
        · exact State.history_commitDoc_ne _ hd.symm _ _
    · rfl

theorem applyRevert_apart (hd : e ≠ d) (h : History B) :
    Apart s d held fun s => s.applyRevert e h := by
  have hdocs : (s.put d (some held)).docs e = s.docs e := s.docs_put_ne hd _
  have hstate : ∀ t : State B, (t.applyRevert e h).2 =
      (t.setHistory e h).put e (Held.restore (t.docs e) h.headBytes).2 := by
    intro t
    rw [State.applyRevert]
    split <;> rfl
  constructor
  · unfold State.applyRevert
    rw [hdocs]
    dsimp only
    split <;> rfl
  · rw [hstate, hstate, hdocs]
    exact put_comm (s := s.setHistory e h) hd _ _
  · rw [hstate]
    exact State.docs_put_ne _ hd.symm _
  · rw [hstate]
    exact State.history_setHistory_ne _ hd.symm _

/-- A revert of the document it reaches: another's, or none. -/
theorem revert_apart {f : State B → Response × State B} (reached : Option DocId)
    (moved : DocId → Option (History B)) (message : String)
    (hf : ∀ t : State B, t.history = s.history → t.order = s.order → f t = match reached with
      | none => (.error message, t)
      | some doc => match moved doc with
        | none => (.error message, t)
        | some h => t.applyRevert doc h)
    (hnot : reached = some d → moved d = none) : Apart s d held f := by
  have hput := hf (s.put d (some held)) rfl rfl
  have hself := hf s rfl rfl
  cases reached with
  | none => exact ⟨by rw [hput, hself], by rw [hput, hself], by rw [hself], by rw [hself]⟩
  | some doc =>
    dsimp only at hput hself
    cases hmoved : moved doc with
    | none =>
      rw [hmoved] at hput hself
      exact ⟨by rw [hput, hself], by rw [hput, hself], by rw [hself], by rw [hself]⟩
    | some h =>
      rw [hmoved] at hput hself
      have hd : doc ≠ d := by
        rintro rfl
        rw [hnot rfl] at hmoved
        cases hmoved
      have hrevert : Apart s d held fun s => s.applyRevert doc h := applyRevert_apart hd h
      exact ⟨by rw [hput, hself]; exact hrevert.answer, by rw [hput, hself]; exact hrevert.state,
        by rw [hself]; exact hrevert.docs, by rw [hself]; exact hrevert.history⟩

theorem dropRun_apart {run : String} (hnot : (s.history d).dropRun run = none) :
    Apart s d held fun s => s.dropRun run := by
  constructor
  · unfold State.dropRun
    rw [State.history_put, show (s.put d (some held)).order = s.order from rfl]
    split <;> rfl
  · unfold State.dropRun
    rw [State.history_put, show (s.put d (some held)).order = s.order from rfl]
    split
    · unfold State.put
      dsimp only
      congr 1
      funext doc
      by_cases hdoc : doc = d
      · subst hdoc
        rw [hnot, Function.update_self, Function.update_self]
      · rw [Function.update_of_ne hdoc, Function.update_of_ne hdoc]
    · rfl
  · unfold State.dropRun
    split
    · dsimp only
      rw [hnot]
    · rfl
  · unfold State.dropRun
    split
    · dsimp only
      rw [hnot, Option.getD_none]
    · rfl

end Apart

/-! ### Two runs -/

section Runs

variable {s t : State B} {kinds : DocId → DocKind} {d : DocId} {r : Request B}

/-- Of two states, the second is the first; or the first with a document brought in. -/
def Opened (kinds : DocId → DocKind) (d : DocId) (s t : State B) : Prop :=
  t = s ∨ s.docs d = none ∧ t = s.docFor d (kinds d)

theorem applyJson_kind (next : Json) (held : Held B) : (held.applyJson next).2.kind = held.kind := by
  cases held with
  | blob bytes => rfl
  | crdt am =>
    unfold Held.applyJson
    dsimp only
    split
    · split <;> rfl
    · rfl

theorem loaded_kind (held : Held B) (hkind : held.kind = .crdt) (bytes : Option B.Bytes) :
    ∃ held', (Held.loaded (some held) bytes).2 = some held' ∧ held'.kind = .crdt := by
  unfold Held.loaded
  split
  · exact ⟨_, rfl, rfl⟩
  · split
    · exact ⟨_, rfl, rfl⟩
    · split
      · exact ⟨_, rfl, rfl⟩
      · exact ⟨held, rfl, hkind⟩

/-- A document that is there is restored to one of its kind. -/
theorem restore_kind (held : Held B) (bytes : Option B.Bytes) :
    ∃ held', (Held.restore (some held) bytes).2 = some held' ∧ held'.kind = held.kind := by
  cases held with
  | blob b => exact ⟨_, rfl, rfl⟩
  | crdt am =>
    unfold Held.restore
    dsimp only
    split
    · exact loaded_kind _ rfl bytes
    · split
      · exact ⟨_, rfl, rfl⟩
      · exact ⟨_, rfl, applyJson_kind _ _⟩

/-- What a document is brought in as: its history says, and the kind asked for. -/
theorem docFor_held (h : History B) (d : DocId) (kind : DocKind) :
    ∃ held : Held B, held.kind = kind ∧
      ∀ t : State B, t.docs d = none → t.history d = h → t.docFor d kind = t.put d (some held) := by
  have hfresh : (Held.fresh kind : Held B).kind = kind := by cases kind <;> rfl
  cases hbytes : h.headBytes with
  | none =>
    refine ⟨.fresh kind, hfresh, fun t hnone hhistory => ?_⟩
    rw [State.docFor, hnone, hhistory, hbytes]
  | some bytes =>
    obtain ⟨held, hheld, hkind⟩ := restore_kind (.fresh kind : Held B) (some bytes)
    refine ⟨held, hkind.trans hfresh, fun t hnone hhistory => ?_⟩
    rw [State.docFor, hnone, hhistory, hbytes]
    dsimp only
    rw [hheld]

/-- A DocSync of a document that is no CRDT is answered as if it were not there. -/
theorem docSync_blob {held : Held B} (hnone : s.docs d = none) (hkind : held.kind ≠ .crdt)
    (peer : String) (message : B.Bytes) : Apart s d held fun s => s.docSync d peer message := by
  cases held with
  | crdt am => exact absurd rfl hkind
  | blob bytes =>
    have hself : s.docSync d peer message = (.error s!"`{d}` is not a crdt document",
        s.setReplica d peer ((s.replicas d peer).getD B.newSync)) := by
      rw [State.docSync, hnone]
    have hput : (s.put d (some (.blob bytes))).docSync d peer message =
        (.error s!"`{d}` is not a crdt document",
          (s.setReplica d peer ((s.replicas d peer).getD B.newSync)).put d (some (.blob bytes))) := by
      rw [State.docSync, State.docs_put_self]
      rfl
    exact ⟨by rw [hput, hself], by rw [hput, hself], by rw [hself]; rfl, by rw [hself]; rfl⟩

/-- A request that neither reaches the document nor brings it in. -/
theorem handle_apart {held : Held B} (hnone : s.docs d = none) (hkind : held.kind = kinds d)
    (hnot : ¬s.Reaches kinds d r) (hof : r.brings ≠ some d) (hrestart : r ≠ .restart) :
    Apart s d held fun s => s.handle r := by
  have hne : ∀ {e : DocId}, r.brings = some e → e ≠ d := by
    rintro e he rfl
    exact hof he
  cases r with
  | openDoc e kind => exact (docFor_apart (hne rfl) kind).next (apart_const Response.ok)
  | callTool e kind run artifact logic =>
    have hbrought : Apart s d held fun s => ((), s.docFor e kind) := docFor_apart (hne rfl) kind
    refine hbrought.next (callTool_apart (hne rfl) (hbrought.docs.trans hnone) run logic ?_)
    rintro ⟨of, commit⟩ ha hd
    cases ha
    refine ⟨fun hcommit => hnot ⟨hne rfl, hd, .inl hcommit⟩, ?_⟩
    by_contra hcrdt
    exact hnot ⟨hne rfl, hd, .inr fun h => hcrdt (hkind.trans h)⟩
  | harnessEvent e kind logic =>
    exact (docFor_apart (hne rfl) kind).next (harnessEvent_apart (hne rfl) logic)
  | writeDoc e kind next commit =>
    exact (docFor_apart (hne rfl) kind).next (writeDoc_apart (hne rfl) next commit)
  | docSync e peer message =>
    by_cases hd : e = d
    · subst hd
      exact docSync_blob hnone (fun h => hnot ⟨rfl, hkind.symm.trans h⟩) peer message
    · exact docSync_apart hd peer message
  | undo mayEdit =>
    refine revert_apart (s.undoableDoc mayEdit) (fun e => (s.history e).undo) "nothing to undo"
      (fun t hhistory horder => ?_) fun hreached => ?_
    · rw [State.handle, State.undo, State.undoableDoc, horder, hhistory]
      rfl
    · by_contra hmoved
      exact hnot ⟨hreached, hmoved⟩
  | redo mayEdit =>
    refine revert_apart (s.undoableDoc mayEdit) (fun e => (s.history e).redone) "nothing to redo"
      (fun t hhistory horder => ?_) fun hreached => ?_
    · rw [State.handle, State.redo, State.undoableDoc, horder, hhistory]
      rfl
    · by_contra hmoved
      exact hnot ⟨hreached, hmoved⟩
  | dropRun run => exact dropRun_apart (not_not.mp hnot)
  | restart => exact absurd rfl hrestart

theorem docFor_again (s : State B) (d : DocId) (kind : DocKind) :
    (s.docFor d kind).docFor d kind = s.docFor d kind := by
  cases hdoc : s.docs d with
  | some held =>
    have hsame : s.docFor d kind = s := by rw [State.docFor, hdoc]
    rw [hsame, hsame]
  | none =>
    obtain ⟨held, -, hput⟩ := docFor_held (s.history d) d kind
    rw [hput s hdoc rfl, State.docFor, State.docs_put_self]

/-- A request that brings the document in finds it the same. -/
theorem handle_brings (hkind : r.OfKind kinds) (hof : r.brings = some d) :
    (s.docFor d (kinds d)).handle r = s.handle r := by
  cases r with
  | openDoc e kind | callTool e kind | harnessEvent e kind | writeDoc e kind =>
    cases hof
    cases hkind
    simp only [State.handle, docFor_again]
  | docSync | undo | redo | dropRun | restart => cases hof

/-- **One request** in two runs. -/
theorem Opened.step (h : Opened kinds d s t) (hkind : r.OfKind kinds)
    (hspares : s.docs d = none → ¬s.Reaches kinds d r) :
    (t.handle r).1 = (s.handle r).1 ∧ Opened kinds d (s.handle r).2 (t.handle r).2 := by
  obtain rfl | ⟨hnone, rfl⟩ := h
  · exact ⟨rfl, .inl rfl⟩
  · by_cases hof : r.brings = some d
    · rw [handle_brings hkind hof]
      exact ⟨rfl, .inl rfl⟩
    · obtain ⟨held, hheld, hput⟩ := docFor_held (s.history d) d (kinds d)
      rw [hput s hnone rfl]
      by_cases hrestart : r = .restart
      · subst hrestart
        exact ⟨rfl, .inl rfl⟩
      · have hapart := handle_apart hnone hheld (hspares hnone) hof hrestart
        refine ⟨hapart.answer, .inr ⟨hapart.docs.trans hnone, ?_⟩⟩
        rw [hput _ (hapart.docs.trans hnone) hapart.history]
        exact hapart.state

theorem Opened.same (h : Opened kinds d s t) (e : DocId) :
    t.shown kinds e = s.shown kinds e ∧ (t.history e).head = (s.history e).head := by
  obtain rfl | ⟨hnone, rfl⟩ := h
  · exact ⟨rfl, rfl⟩
  · obtain ⟨held, -, hput⟩ := docFor_held (s.history d) d (kinds d)
    have hhead : (s.docFor d (kinds d)).history = s.history := by rw [hput s hnone rfl]; rfl
    refine ⟨?_, by rw [hhead]⟩
    by_cases hd : e = d
    · rw [hd, State.shown, docFor_again]
      rfl
    · have hapart : Apart s d held fun s => ((), s.docFor e (kinds e)) := docFor_apart hd _
      rw [hput s hnone rfl, State.shown, State.shown]
      rw [show (s.put d (some held)).docFor e (kinds e) = (s.docFor e (kinds e)).put d (some held)
        from hapart.state]
      exact json_put hd _

/-- **Bringing a document in is invisible** in every run, from any state, in which no request reaches
the document by its id while it is not in memory: every request is answered the same, and every
document and every head is the same at the end. -/
theorem opening_invisible (s : State B) (d : DocId) {requests : List (Request B)}
    (hkinds : ∀ r ∈ requests, r.OfKind kinds) (hspares : s.Spares kinds d requests) :
    (s.docFor d (kinds d)).answers requests = s.answers requests ∧
      ∀ e, ((s.docFor d (kinds d)).after requests).shown kinds e = (s.after requests).shown kinds e ∧
        (((s.docFor d (kinds d)).after requests).history e).head =
          ((s.after requests).history e).head := by
  have hopened : Opened kinds d s (s.docFor d (kinds d)) := by
    cases hdoc : s.docs d with
    | none => exact .inr ⟨hdoc, rfl⟩
    | some held => exact .inl (by rw [State.docFor, hdoc])
  generalize s.docFor d (kinds d) = t at hopened
  induction requests generalizing s t with
  | nil => exact ⟨rfl, hopened.same⟩
  | cons r rest ih =>
    obtain ⟨hanswer, hnext⟩ := hopened.step (hkinds r List.mem_cons_self) hspares.1
    obtain ⟨hanswers, hend⟩ :=
      ih _ (fun r hr => hkinds r (List.mem_cons_of_mem _ hr)) hspares.2 _ hnext
    exact ⟨congrArg₂ List.cons hanswer hanswers, hend⟩

end Runs

/-! ### A replica that comes first -/

/-- A message that brings nothing is taken. -/
noncomputable def heard : Backend :=
  { plain with receive := fun am state _ => .ok (am, state) }

/-- The board is opened before its replica is heard. -/
def openedFirst : List (Request heard) :=
  [.openDoc "board" .crdt, .docSync "board" "ana" none]

noncomputable def boardStart : State heard :=
  .start (fun _ => .empty heard) []

theorem opening_invisible_board :
    (boardStart.docFor "board" .crdt).answers openedFirst = boardStart.answers openedFirst ∧
      ∀ e, ((boardStart.docFor "board" .crdt).after openedFirst).shown (fun _ => .crdt) e =
          (boardStart.after openedFirst).shown (fun _ => .crdt) e ∧
        (((boardStart.docFor "board" .crdt).after openedFirst).history e).head =
          ((boardStart.after openedFirst).history e).head := by
  have hkinds : ∀ r ∈ openedFirst, r.OfKind fun _ => .crdt := by
    intro r hr
    simp only [openedFirst, List.mem_cons, List.not_mem_nil, or_false] at hr
    obtain rfl | rfl := hr
    · rfl
    · trivial
  have hspares : boardStart.Spares (fun _ => .crdt) "board" openedFirst :=
    ⟨fun _ => id, nofun, trivial⟩
  exact opening_invisible boardStart "board" hkinds hspares

/-- A replica that is heard before anyone opens its board is told that there is none. -/
theorem opening_shows : ¬∀ (B : Backend) (kinds : DocId → DocKind) (history : DocId → History B)
    (order : List DocId) (d : DocId) (requests : List (Request B)),
    (∀ r ∈ requests, r.OfKind kinds) →
      ((State.start history order).docFor d (kinds d)).answers requests =
        (State.start history order).answers requests := by
  intro hclaim
  have hsame := hclaim heard (fun _ => .crdt) (fun _ => .empty heard) [] "board"
    [.docSync "board" "ana" none] fun r hr => by
      rw [List.mem_singleton.mp hr]
      trivial
  cases hsame

end Shelf

end LocalSpace
