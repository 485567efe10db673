import LocalSpace.Shelf
import LocalSpace.Library.Runs

/-!
# The live document is what its history says

Every document in memory is as the head of its history has it, but for what a WriteDoc that asked not
to be committed has written since the head last moved (`live_is_recorded`); so that a restart changes
no other document. What a revert puts back is written over the live document, and is what that
document then projects to unless `scalar_to_json` takes bytes, or a scalar of an unknown type, for
the value that is put back there (`Node.Fits`).
-/

namespace LocalSpace

namespace Shelf

open Library

variable {B : Backend}

/-- The JSON of the snapshot that a head names, of a document of a kind; of a document with no head,
that of one just made. -/
@[grind =]
def Held.recordedAs (bytes : Option B.Bytes) (kind : DocKind) : Option Json :=
  match bytes with
  | none => some (Held.fresh kind : Held B).json
  | some bytes => Held.jsonOfSnapshot B kind bytes

@[grind =]
def State.recorded (s : State B) (doc : DocId) (kind : DocKind) : Option Json :=
  Held.recordedAs (s.history doc).headBytes kind

/-- Core, and for each document what a WriteDoc that asked not to be committed has left of it since
its head last moved. -/
structure Watched (B : Backend) where
  state : State B
  drafts : DocId → Option Json

namespace Watched

variable (w : Watched B)

/-- The draft that a request leaves, of a document whose head it leaves. -/
def draftAfter (r : Request B) (doc : DocId) : Option Json :=
  match r with
  | .writeDoc d kind next false =>
    match ((w.state.docFor d kind).write d next false none).1 with
    | .ok true => if doc = d then some ((w.state.handle r).2.json doc) else w.drafts doc
    | _ => w.drafts doc
  | .restart => none
  | _ => w.drafts doc

@[grind =]
def step (r : Request B) : Watched B where
  state := (w.state.handle r).2
  drafts doc :=
    if ((w.state.handle r).2.history doc).head = (w.state.history doc).head then w.draftAfter r doc
    else none

/-- A start on a database. -/
@[grind =]
def start (history : DocId → History B) (order : List DocId) : Watched B :=
  ⟨.start history order, fun _ => none⟩

end Watched

@[grind =]
def system (B : Backend) : System (Watched B) (Request B) where
  step := Watched.step
  enabled _ _ := True

/-- What is put back is not taken for something else that the live document has in its place. -/
def Held.FitsBack (held : Option (Held B)) (bytes : Option B.Bytes) : Prop :=
  ∀ am, held = some (.crdt am) →
    ∀ target, Held.jsonOfSnapshot B .crdt (bytes.getD B.empty) = some target →
      (Node.map (B.root am)).Fits B.serde target

/-- What a request must meet: what a revert puts back fits where it is put. -/
def Meets (w : Watched B) : Request B → Prop
  | .undo mayEdit => ∀ doc ∈ w.state.undoableDoc mayEdit, ∀ h ∈ (w.state.history doc).undo,
      Held.FitsBack (w.state.docs doc) h.headBytes
  | .redo mayEdit => ∀ doc ∈ w.state.undoableDoc mayEdit, ∀ h ∈ (w.state.history doc).redone,
      Held.FitsBack (w.state.docs doc) h.headBytes
  | .dropRun run => ∀ doc, ∀ h ∈ (w.state.history doc).dropRun run,
      Held.FitsBack (w.state.docs doc) h.headBytes
  | _ => True

/-! ### One document -/

section Document

variable {held held' : Held B} {bytes : Option B.Bytes} {changes : Changes}

theorem changes_eq (h : changes.isEmpty = true) : changes = {} := by
  obtain ⟨added, removed, changed⟩ := changes
  simp only [Changes.isEmpty, decide_eq_true_eq] at h
  obtain ⟨rfl, rfl, rfl⟩ := h
  rfl

/-- A projection is as `serde_json` holds it. -/
theorem json_ordered (hB : B.Sound) {node : Node} (h : node.Ordered) :
    (B.serde.json node).Ordered := by
  induction h with
  | @map entries hkeys hentries ih =>
    rw [AutoSerde.json, AutoSerde.jsonEntries_eq]
    refine .obj (hkeys.map B.serde.json) fun f hf => ?_
    obtain ⟨e, he, rfl⟩ := List.mem_map.mp hf
    exact ih e he
  | @list items hitems ih =>
    rw [AutoSerde.json, AutoSerde.jsonItems_eq]
    refine .arr fun v hv => ?_
    obtain ⟨n, hn, rfl⟩ := List.mem_map.mp hv
    exact ih n hn
  | text content =>
    rw [AutoSerde.json]
    exact hB.text content
  | scalar s =>
    rw [AutoSerde.json]
    cases s with
    | null => exact .null
    | boolean b => exact .bool b
    | str s => exact .str s
    | int i => exact .num _ _
    | uint u => exact .num _ _
    | counter v => exact .num _ _
    | timestamp t => exact .num _ _
    | f64 v =>
      cases v with
      | none => exact .null
      | some v => exact .num _ _
    | bytes b => exact hB.bytes b
    | unknown c b => exact hB.unknown c b

/-- What writing a JSON value into a document does: it stays of its kind; it stays as it is where no
change is counted, or the write fails; and a CRDT document then has the value, where it fits. -/
theorem applyJson_held (hB : B.Sound) (held : Held B) {next : Json} (hnext : next.Ordered) :
    (held.applyJson next).2.kind = held.kind ∧
      ((∀ changes, (held.applyJson next).1 = .ok changes → changes.isEmpty = true) →
        (held.applyJson next).2 = held) ∧
      ∀ am fields, held = .crdt am → next = .obj fields →
        (Node.map (B.root am)).Fits B.serde next → (held.applyJson next).2.json = next := by
  cases held with
  | crdt am =>
    cases hnext with
    | @obj fields hkeys hfields =>
      obtain ⟨after, changes, happly, hordered, hnone, hjson⟩ :=
        AutoSerde.applyJson_over (S := B.serde) (.obj hkeys hfields) (hB.ordered am)
      rw [Held.applyJson, happly]
      refine ⟨rfl, fun h => ?_, ?_⟩
      · dsimp only
        rw [if_pos (h changes rfl)]
      · rintro _ _ ⟨⟩ ⟨⟩ hfits
        dsimp only
        split
        · next hempty =>
          rw [Held.json, ← hnone (changes_eq hempty)]
          exact hjson hfits
        · rw [Held.json, hB.put _ _ hordered]
          exact hjson hfits
    | _ => exact ⟨rfl, fun _ => rfl, nofun⟩
  | blob bytes =>
    refine ⟨rfl, fun h => ?_, nofun⟩
    rw [Held.applyJson] at h ⊢
    have hsame := h _ rfl
    split at hsame
    · next heq => rw [heq]
    · cases hsame

theorem jsonOfSnapshot_ordered (hB : B.Sound) {bytes : B.Bytes} {target : Json}
    (h : Held.jsonOfSnapshot B .crdt bytes = some target) :
    ∃ fields, target = .obj fields ∧ target.Ordered := by
  rw [Held.jsonOfSnapshot] at h
  split at h
  · cases h
    exact ⟨[], rfl, .obj .nil (by simp)⟩
  · obtain ⟨am, -, rfl⟩ := Option.map_eq_some_iff.mp h
    refine ⟨_, by rw [AutoSerde.json], json_ordered hB (hB.ordered am)⟩

/-- A snapshot tells the document it is of. -/
theorem recordedAs_snapshot (hB : B.Sound) (held : Held B) :
    Held.recordedAs (some held.snapshot) held.kind = some held.json := by
  cases held with
  | crdt am =>
    obtain ⟨hempty, am', hload, hroot⟩ := hB.saved am
    rw [Held.recordedAs, Held.snapshot, Held.kind, Held.jsonOfSnapshot, hempty, hload]
    rw [if_neg Bool.false_ne_true, Option.map_some, hroot]
    rfl
  | blob bytes => rfl

theorem json_new (hB : B.Sound) : B.serde.json (.map (B.root B.new)) = .obj [] := by
  rw [hB.new.1, AutoSerde.json, AutoSerde.jsonEntries]

/-- A snapshot loaded in the place of nothing. -/
theorem loaded_recorded (hB : B.Sound) {before : Option (Held B)}
    (hbefore : ∀ h, before = some h → h.kind = .crdt)
    (h : (Held.loaded before bytes).2 = some held') :
    held'.kind = .crdt ∧ ∀ j ∈ Held.recordedAs bytes .crdt, held'.json = j := by
  cases bytes with
  | none =>
    cases h
    exact ⟨rfl, fun j hj => Option.some.inj hj⟩
  | some b =>
    rw [Held.loaded] at h
    rw [Held.recordedAs, Held.jsonOfSnapshot]
    split at h
    · next hempty =>
      cases h
      rw [if_pos hempty]
      exact ⟨rfl, fun j hj => (json_new hB).trans (Option.some.inj hj)⟩
    · next hempty =>
      rw [if_neg hempty]
      split at h
      · next am hload =>
        cases h
        rw [hload]
        exact ⟨rfl, fun j hj => Option.some.inj hj⟩
      · next hload =>
        rw [hload]
        exact ⟨hbefore _ h, by simp⟩

/-- **What a revert puts back is what the history says**, where it fits. -/
theorem restore_recorded (hB : B.Sound) {before : Option (Held B)}
    (hfits : Held.FitsBack before bytes) (h : (Held.restore before bytes).2 = some held') :
    ∀ j ∈ Held.recordedAs bytes held'.kind, held'.json = j := by
  have hloaded : ∀ {before : Option (Held B)}, (∀ h, before = some h → h.kind = .crdt) →
      (Held.loaded before bytes).2 = some held' →
        ∀ j ∈ Held.recordedAs bytes held'.kind, held'.json = j := by
    intro before hbefore h
    obtain ⟨hkind, hj⟩ := loaded_recorded hB hbefore h
    rw [hkind]
    exact hj
  rcases before with _ | (am | b)
  · exact hloaded (fun _ hnone => (by cases hnone)) h
  · rw [Held.restore] at h
    split at h
    · exact hloaded (by rintro _ ⟨⟩; rfl) h
    · have hrecorded : Held.recordedAs bytes .crdt =
          Held.jsonOfSnapshot B .crdt (bytes.getD B.empty) := by
        cases bytes with
        | none =>
          rw [Option.getD_none, Held.jsonOfSnapshot, if_pos hB.empty, Held.recordedAs, ← json_new hB]
          rfl
        | some b => rfl
      split at h
      · next hnone =>
        cases h
        rw [Held.kind, hrecorded, hnone]
        rintro _ ⟨⟩
      · next target htarget =>
        obtain ⟨fields, hobj, hordered⟩ := jsonOfSnapshot_ordered hB htarget
        obtain ⟨hkind, -, hjson⟩ := applyJson_held hB (.crdt am) hordered
        cases h
        rw [hkind, Held.kind, hrecorded, htarget]
        rintro _ ⟨⟩
        exact hjson am fields rfl hobj (hfits am rfl _ htarget)
  · cases h
    cases bytes with
    | none => exact fun j hj => Option.some.inj hj
    | some b => exact fun j hj => Option.some.inj hj

end Document

/-! ### One request -/

section Requests

variable {s t u : State B} {doc : DocId}

/-- A document is what its history says. -/
def State.Matches (s : State B) (doc : DocId) : Prop :=
  ∀ held, s.docs doc = some held → ∀ j ∈ s.recorded doc held.kind, held.json = j

/-- A document and its history are as they were. -/
structure Same (s t : State B) (doc : DocId) : Prop where
  history : t.history doc = s.history doc
  held : ∀ held', t.docs doc = some held' →
    ∃ held, s.docs doc = some held ∧ held.kind = held'.kind ∧ held.json = held'.json

theorem Same.refl (s : State B) (doc : DocId) : Same s s doc :=
  ⟨rfl, fun held h => ⟨held, h, rfl, rfl⟩⟩

theorem Same.trans (h : Same s t doc) (h' : Same t u doc) : Same s u doc := by
  refine ⟨h'.history.trans h.history, fun held hu => ?_⟩
  obtain ⟨held₁, h₁, hkind₁, hjson₁⟩ := h'.held held hu
  obtain ⟨held₂, h₂, hkind₂, hjson₂⟩ := h.held held₁ h₁
  exact ⟨held₂, h₂, hkind₂.trans hkind₁, hjson₂.trans hjson₁⟩

theorem Same.matches (h : Same s t doc) (hs : s.Matches doc) : t.Matches doc := by
  intro held' hheld' j hj
  obtain ⟨held, hheld, hkind, hjson⟩ := h.held held' hheld'
  rw [State.recorded, h.history, ← hkind] at hj
  exact hjson.symm.trans (hs held hheld j hj)

/-- What a step does to every document: it leaves the document and its history as they were, or the
document is then what its history says. -/
def Keeps (s t : State B) : Prop :=
  ∀ doc, Same s t doc ∨ t.Matches doc

theorem Keeps.refl (s : State B) : Keeps s s :=
  fun doc => .inl (.refl s doc)

theorem Keeps.trans (h : Keeps s t) (h' : Keeps t u) : Keeps s u := by
  intro doc
  obtain hsame' | hmatches' := h' doc
  · obtain hsame | hmatches := h doc
    · exact .inl (hsame.trans hsame')
    · exact .inr (hsame'.matches hmatches)
  · exact .inr hmatches'

/-- One document rewritten, with its history. -/
theorem keeps_at (d : DocId) (hothers : ∀ doc ≠ d, t.docs doc = s.docs doc ∧
    t.history doc = s.history doc) (hself : Same s t d ∨ t.Matches d) : Keeps s t := by
  intro doc
  by_cases hdoc : doc = d
  · rw [hdoc]
    exact hself
  · obtain ⟨hdocs, hhistory⟩ := hothers doc hdoc
    exact .inl ⟨hhistory, fun held h => ⟨held, hdocs ▸ h, rfl, rfl⟩⟩

/-- A document that is not there is brought in of the kind asked for, as its history says. -/
theorem docFor_brought (hB : B.Sound) {d : DocId} (hnone : s.docs d = none) (kind : DocKind) :
    ∃ held, s.docFor d kind = s.put d (some held) ∧ held.kind = kind ∧
      ∀ j ∈ s.recorded d kind, held.json = j := by
  rw [State.docFor, hnone, State.recorded]
  cases hbytes : (s.history d).headBytes with
  | none => exact ⟨.fresh kind, rfl, by cases kind <;> rfl, fun j hj => Option.some.inj hj⟩
  | some bytes =>
    cases kind with
    | blob => exact ⟨.blob bytes, rfl, rfl, fun j hj => Option.some.inj hj⟩
    | crdt =>
      have hloaded : ∃ held, (Held.loaded (some (.crdt B.new)) (some bytes)).2 = some held := by
        rw [Held.loaded]
        split
        · exact ⟨_, rfl⟩
        · split
          · exact ⟨_, rfl⟩
          · exact ⟨_, rfl⟩
      obtain ⟨held, hheld⟩ := hloaded
      obtain ⟨hkind, hj⟩ := loaded_recorded hB (by rintro _ ⟨⟩; rfl) hheld
      refine ⟨held, ?_, hkind, hj⟩
      dsimp only
      rw [Held.fresh, Held.restore, if_pos hB.new.2, hheld]

theorem put_others {d : DocId} (held : Option (Held B)) (doc : DocId) (hdoc : doc ≠ d) :
    (s.put d held).docs doc = s.docs doc ∧ (s.put d held).history doc = s.history doc :=
  ⟨s.docs_put_ne hdoc held, rfl⟩

theorem docFor_keeps (hB : B.Sound) (d : DocId) (kind : DocKind) : Keeps s (s.docFor d kind) := by
  cases hdoc : s.docs d with
  | some held =>
    rw [State.docFor, hdoc]
    exact .refl s
  | none =>
    obtain ⟨held, heq, hkind, hj⟩ := docFor_brought hB hdoc kind
    rw [heq]
    refine keeps_at d (put_others _) (.inr fun held' hheld' j hrecorded => ?_)
    rw [State.docs_put_self, Option.some.injEq] at hheld'
    subst hheld'
    rw [State.recorded, State.history_put, hkind] at hrecorded
    exact hj j hrecorded

/-- A document, rewritten and committed. -/
theorem commitDoc_keeps (hB : B.Sound) (d : DocId) (held : Held B) (run : Option String) :
    Keeps s ((s.put d (some held)).commitDoc d held run) := by
  refine keeps_at d (fun doc hdoc => ?_) (.inr fun held' hheld' j hj => ?_)
  · rw [State.docs_commitDoc, State.history_commitDoc_ne _ hdoc]
    exact put_others _ doc hdoc
  · rw [State.docs_commitDoc, State.docs_put_self, Option.some.injEq] at hheld'
    subst hheld'
    rw [State.recorded, State.history_commitDoc_self, History.headBytes_commit,
      recordedAs_snapshot hB] at hj
    exact Option.some.inj hj

/-- A document rewritten as it was. -/
theorem put_same {d : DocId} {held held' : Held B} (hheld : s.docs d = some held)
    (hkind : held.kind = held'.kind) (hjson : held.json = held'.json) :
    Keeps s (s.put d (some held')) := by
  refine keeps_at d (put_others _) (.inl ⟨rfl, fun x hx => ?_⟩)
  rw [State.docs_put_self, Option.some.injEq] at hx
  subst hx
  exact ⟨held, hheld, hkind, hjson⟩

/-- What a write leaves: it is committed, or changes nothing, unless it was asked not to commit a
change that it makes. -/
theorem write_keeps (hB : B.Sound) (d : DocId) {next : Json} (hnext : next.Ordered) (commit : Bool)
    (run : Option String) (hcommit : commit = true ∨ (s.write d next commit run).1 ≠ .ok true) :
    Keeps s (s.write d next commit run).2 := by
  rw [State.write] at hcommit ⊢
  cases hheld : s.docs d with
  | none => exact .refl s
  | some held =>
    obtain ⟨hkind, hsame, -⟩ := applyJson_held hB held hnext
    rw [hheld] at hcommit
    dsimp only at hcommit ⊢
    have hleft : (∀ changes, (held.applyJson next).1 = .ok changes → changes.isEmpty = true) →
        Keeps s (s.put d (some (held.applyJson next).2)) := by
      intro h
      rw [hsame h]
      exact put_same hheld rfl rfl
    split
    · next e he => exact hleft fun changes h => by rw [he] at h; cases h
    · next changes hchanges =>
      rw [hchanges] at hcommit
      dsimp only at hcommit
      split
      · next hempty =>
        refine hleft fun changes' h => ?_
        rw [hchanges] at h
        cases h
        exact hempty
      · next hempty =>
        rw [if_neg hempty] at hcommit
        split
        · exact commitDoc_keeps hB d _ run
        · next hnot =>
          rw [if_neg hnot] at hcommit
          exact absurd hcommit (by simp [hnot])

/-- What a write leaves that was asked not to be committed: the other documents, and every
history. -/
theorem write_uncommitted (d : DocId) (next : Json) (run : Option String) :
    (s.write d next false run).2.history = s.history ∧
      ∀ doc ≠ d, (s.write d next false run).2.docs doc = s.docs doc := by
  rw [State.write]
  split
  · exact ⟨rfl, fun _ _ => rfl⟩
  · dsimp only
    split
    · exact ⟨rfl, fun doc hdoc => s.docs_put_ne hdoc _⟩
    · split
      · exact ⟨rfl, fun doc hdoc => s.docs_put_ne hdoc _⟩
      · rw [if_neg Bool.false_ne_true]
        exact ⟨rfl, fun doc hdoc => s.docs_put_ne hdoc _⟩

theorem execute_keeps (hB : B.Sound) (d : DocId) (run : Option String) (content : Option Json)
    (logic : Json → Option Json → Reply) : Keeps s (s.execute d run content logic).2 := by
  rw [State.execute]
  dsimp only
  split
  · exact .refl s
  · next next _ =>
    have hwrite := write_keeps (s := s) hB d next.2 true run (.inl rfl)
    split
    · exact hwrite
    · exact hwrite

theorem callTool_keeps (hB : B.Sound) (d : DocId) (run : Option String)
    (artifact : Option (DocId × Option Nat)) (logic : Json → Option Json → Reply) :
    Keeps s (s.callTool d run artifact logic).2 := by
  unfold State.callTool
  split
  · exact execute_keeps hB d run none logic
  · split
    · exact .refl s
    · exact execute_keeps hB d run _ logic

theorem harnessEvent_keeps (hB : B.Sound) (d : DocId) (logic : Json → Option Value) :
    Keeps s (s.harnessEvent d logic).2 := by
  rw [State.harnessEvent]
  split
  · exact .refl s
  · next next _ => exact write_keeps hB d next.2 true none (.inl rfl)

/-- The sync states are no document's. -/
theorem setReplica_keeps (d : DocId) (peer : String) (state : B.Sync) :
    Keeps s (s.setReplica d peer state) :=
  fun _ => .inl ⟨rfl, fun held h => ⟨held, h, rfl, rfl⟩⟩

theorem docSync_keeps (hB : B.Sound) (d : DocId) (peer : String) (message : B.Bytes) :
    Keeps s (s.docSync d peer message).2 := by
  rw [State.docSync]
  dsimp only
  split
  · next am hheld =>
    split
    · exact setReplica_keeps d peer _
    · next am' state' hreceive =>
      split
      · next hheads =>
        have hroot := hB.received _ _ _ _ hreceive hheads
        have hjson : (Held.crdt am : Held B).json = (Held.crdt am' : Held B).json := by
          rw [Held.json, Held.json, hroot]
        have hput : Keeps s (s.put d (some (.crdt am'))) := put_same hheld rfl hjson
        exact hput.trans (setReplica_keeps d peer state')
      · have hset := setReplica_keeps (s := s) d peer state'
        exact hset.trans (commitDoc_keeps hB d _ none)
  · exact setReplica_keeps d peer _

theorem applyRevert_keeps (hB : B.Sound) {d : DocId} {h : History B}
    (hfits : Held.FitsBack (s.docs d) h.headBytes) : Keeps s (s.applyRevert d h).2 := by
  have hkeeps : Keeps s ((s.setHistory d h).put d (Held.restore (s.docs d) h.headBytes).2) := by
    refine keeps_at d (fun doc hdoc => ?_) (.inr fun held hheld j hj => ?_)
    · rw [State.docs_put_ne _ hdoc, State.history_put, State.history_setHistory_ne _ hdoc]
      exact ⟨rfl, rfl⟩
    · rw [State.docs_put_self] at hheld
      rw [State.recorded, State.history_put, State.history_setHistory_self] at hj
      exact restore_recorded hB hfits hheld j hj
  rw [State.applyRevert]
  split
  · exact hkeeps
  · exact hkeeps

theorem dropRun_keeps (hB : B.Sound) {run : String}
    (hfits : ∀ doc, ∀ h ∈ (s.history doc).dropRun run, Held.FitsBack (s.docs doc) h.headBytes) :
    Keeps s (s.dropRun run).2 := by
  rw [State.dropRun]
  split
  · intro doc
    cases hdrop : (s.history doc).dropRun run with
    | none =>
      refine .inl ⟨?_, fun held hheld => ⟨held, ?_, rfl, rfl⟩⟩
      · dsimp only
        rw [hdrop, Option.getD_none]
      · dsimp only at hheld
        rw [hdrop] at hheld
        exact hheld
    | some h =>
      refine .inr fun held hheld j hj => ?_
      dsimp only at hheld
      rw [hdrop] at hheld
      rw [State.recorded] at hj
      dsimp only at hj
      rw [hdrop, Option.getD_some] at hj
      exact restore_recorded hB (hfits doc h hdrop) hheld j hj
  · exact .refl s

theorem docFor_history (s : State B) (d : DocId) (kind : DocKind) :
    (s.docFor d kind).history = s.history := by
  rw [State.docFor]
  split
  · rfl
  · split
    · rfl
    · rfl

theorem writeDoc_eq (s : State B) (d : DocId) (next : Value) (commit : Bool) :
    (s.writeDoc d next commit).2 = (s.write d next commit none).2 := by
  rw [State.writeDoc]
  split
  · rfl
  · rfl

end Requests

/-! ### Runs -/

section Runs

variable {w : Watched B} {r : Request B} {doc : DocId} {history : DocId → History B}
  {order : List DocId}

/-- A document in memory is as its history's head has it, or as the last WriteDoc that asked not to
be committed has left it since the head last moved. -/
def Watched.Tells (w : Watched B) (doc : DocId) : Prop :=
  ∀ held, w.state.docs doc = some held →
    w.drafts doc = some held.json ∨ ∀ j ∈ w.state.recorded doc held.kind, held.json = j

theorem tells_step (h : w.Tells doc)
    (hkeeps : Same w.state (w.state.handle r).2 doc ∨ (w.state.handle r).2.Matches doc)
    (hdraft : w.draftAfter r doc = w.drafts doc) : (w.step r).Tells doc := by
  intro held hheld
  obtain hsame | hmatches := hkeeps
  · obtain ⟨before, hbefore, hkind, hjson⟩ := hsame.held held hheld
    obtain hdrafted | hrecorded := h before hbefore
    · refine .inl ?_
      rw [Watched.step]
      dsimp only
      rw [if_pos (congrArg History.head hsame.history), hdraft, hdrafted, hjson]
    · refine .inr fun j hj => hjson.symm.trans (hrecorded j ?_)
      rw [State.recorded, hkind, ← hsame.history]
      exact hj
  · exact .inr (hmatches held hheld)

/-- **One request** that meets its condition. -/
theorem Watched.Tells.step (hB : B.Sound) (h : ∀ doc, w.Tells doc) (hmeets : Meets w r)
    (doc : DocId) : (w.step r).Tells doc := by
  cases r with
  | openDoc d kind => exact tells_step (h doc) (docFor_keeps hB d kind doc) rfl
  | callTool d kind run artifact logic =>
    exact tells_step (h doc)
      ((docFor_keeps hB d kind).trans (callTool_keeps hB d run artifact logic) doc) rfl
  | harnessEvent d kind logic =>
    exact tells_step (h doc) ((docFor_keeps hB d kind).trans (harnessEvent_keeps hB d logic) doc) rfl
  | docSync d peer message => exact tells_step (h doc) (docSync_keeps hB d peer message doc) rfl
  | undo mayEdit =>
    refine tells_step (h doc) ?_ rfl
    rw [State.handle, State.undo]
    split
    · exact Keeps.refl _ doc
    · next d hd =>
      split
      · exact Keeps.refl _ doc
      · next h hh => exact applyRevert_keeps hB (hmeets d hd h hh) doc
  | redo mayEdit =>
    refine tells_step (h doc) ?_ rfl
    rw [State.handle, State.redo]
    split
    · exact Keeps.refl _ doc
    · next d hd =>
      split
      · exact Keeps.refl _ doc
      · next h hh => exact applyRevert_keeps hB (hmeets d hd h hh) doc
  | dropRun run => exact tells_step (h doc) (dropRun_keeps hB hmeets doc) rfl
  | restart => exact nofun
  | writeDoc d kind next commit =>
    have hbrought : Keeps w.state (w.state.docFor d kind) := docFor_keeps hB d kind
    have hafter : (w.state.handle (.writeDoc d kind next commit)).2 =
        ((w.state.docFor d kind).write d next commit none).2 := writeDoc_eq _ d next commit
    by_cases hleft : commit = true ∨
        ((w.state.docFor d kind).write d next commit none).1 ≠ .ok true
    · refine tells_step (h doc) ?_ ?_
      · rw [hafter]
        exact hbrought.trans (write_keeps hB d next.2 commit none hleft) doc
      · cases commit with
        | true => rfl
        | false =>
          rw [Watched.draftAfter]
          split
          · next heq => exact absurd heq (hleft.resolve_left Bool.false_ne_true)
          · rfl
    · -- a change that was asked not to be committed
      obtain ⟨hcommit, hchanged⟩ := not_or.mp hleft
      rw [Bool.not_eq_true] at hcommit
      subst hcommit
      rw [not_not] at hchanged
      obtain ⟨hhistory, hothers⟩ := write_uncommitted (s := w.state.docFor d kind) d next none
      have hdraft : w.draftAfter (.writeDoc d kind next false) doc =
          if doc = d then some ((w.state.handle (.writeDoc d kind next false)).2.json doc)
          else w.drafts doc := by
        rw [Watched.draftAfter]
        split
        · rfl
        · next hnot => exact absurd hchanged hnot
      by_cases hdoc : doc = d
      · intro held hheld
        change (w.state.handle (.writeDoc d kind next false)).2.docs doc = some held at hheld
        refine .inl ?_
        rw [Watched.step]
        dsimp only
        rw [if_pos, hdraft, if_pos hdoc, State.json, hheld]
        · rfl
        · rw [hafter, hhistory, docFor_history]
      · refine tells_step (h doc) ?_ (hdraft.trans (if_neg hdoc))
        rw [hafter]
        have hsame : Same (w.state.docFor d kind)
            ((w.state.docFor d kind).write d next false none).2 doc :=
          ⟨by rw [hhistory], fun held hheld => ⟨held, hothers doc hdoc ▸ hheld, rfl, rfl⟩⟩
        obtain h | h := hbrought doc
        · exact .inl (h.trans hsame)
        · exact .inr (hsame.matches h)

/-- **The live document is what its history says.** In every run on any database whose reverts fit
where they are put back, every document in memory has the JSON of the snapshot that its head names,
or what the last WriteDoc that asked not to be committed has left since the head last moved; and a
restart changes no other document. -/
theorem live_is_recorded (hB : B.Sound)
    (run : (system B).Runs Meets (Watched.start history order) w) (doc : DocId) (held : Held B)
    (hheld : w.state.docs doc = some held) :
    (w.drafts doc = some held.json ∨ ∀ j ∈ w.state.recorded doc held.kind, held.json = j) ∧
      (w.drafts doc = none → (w.state.recorded doc held.kind).isSome = true →
        (((w.state.handle .restart).2.docFor doc held.kind).json doc) = held.json) := by
  have htells : ∀ doc, w.Tells doc :=
    run.invariant (I := fun w => ∀ doc, w.Tells doc) (fun _ => nofun)
      fun _ _ h _ hmeets => Watched.Tells.step hB h hmeets
  refine ⟨htells doc held hheld, fun hdraft hsome => ?_⟩
  obtain ⟨j, hj⟩ := Option.isSome_iff_exists.mp hsome
  obtain hdrafted | hrecorded := htells doc held hheld
  · rw [hdraft] at hdrafted
    cases hdrafted
  · obtain ⟨again, heq, -, hagain⟩ := docFor_brought hB
      (s := (w.state.handle .restart).2) (d := doc) rfl held.kind
    rw [heq, State.json, State.docs_put_self, hrecorded j hj]
    exact hagain j hj

end Runs

/-! ### A board undone -/

/-- A board with a shape. -/
def boardTree (x : Int) : Tree :=
  ⟨[("x", .scalar (.int x))], .map (List.pairwise_singleton _ _)
    fun e he => by rw [List.mem_singleton.mp he]; exact .scalar _⟩

/-- A history of two commits on a board. -/
def boardHistory : History plain :=
  ⟨[⟨none, some (boardTree 1, true), none⟩, ⟨some 0, some (boardTree 2, true), none⟩], some 1, []⟩

/-- The second is undone before the board is opened. -/
def boardRequests : List (Request plain) :=
  [.undo fun _ => true, .openDoc "board" .crdt]

noncomputable def boardUndone : Watched plain :=
  (system plain).run (.start (fun _ => boardHistory) ["board", "board"]) boardRequests

noncomputable def boardHeld : Held plain :=
  .crdt (boardTree 1, true)

theorem live_is_recorded_board :
    (boardUndone.drafts "board" = some boardHeld.json ∨
      ∀ j ∈ boardUndone.state.recorded "board" boardHeld.kind, boardHeld.json = j) ∧
    (boardUndone.drafts "board" = none →
      (boardUndone.state.recorded "board" boardHeld.kind).isSome = true →
        ((boardUndone.state.handle .restart).2.docFor "board" boardHeld.kind).json "board" =
          boardHeld.json) := by
  refine live_is_recorded plain_sound (System.runs_of_list ?_) "board" boardHeld rfl
  refine ⟨trivial, ?_, trivial, trivial, trivial⟩
  intro doc hdoc h hh am ham
  cases ham

/-- Two versions of a board: a text, and bytes in its place that a replica brought. -/
def textTree : Tree :=
  ⟨[("x", .scalar (.str "bytes:1"))], .map (List.pairwise_singleton _ _)
    fun e he => by rw [List.mem_singleton.mp he]; exact .scalar _⟩

def bytesTree : Tree :=
  ⟨[("x", .scalar (.bytes [7]))], .map (List.pairwise_singleton _ _)
    fun e he => by rw [List.mem_singleton.mp he]; exact .scalar _⟩

def bytesHistory : History plain :=
  ⟨[⟨none, some (textTree, true), none⟩, ⟨some 0, some (bytesTree, true), none⟩], some 1, []⟩

noncomputable def textSave : plain.Bytes :=
  some (textTree, true)

noncomputable def bytesHeld : Held plain :=
  .crdt (bytesTree, true)

/-- The bytes are taken for the text that is put back in their place. -/
theorem bytes_stay : bytesHeld.applyJson (plain.serde.json (.map textTree.1)) =
    (.ok {}, bytesHeld) := by
  have htarget : plain.serde.json (.map textTree.1) = .obj [("x", .str "bytes:1")] := by
    simp [AutoSerde.json, AutoSerde.jsonEntries, textTree, AutoSerde.scalar]
  have hread : scalarToJson (.bytes [7]) = .str "bytes:1" := rfl
  have happly : AutoCommit.applyJson bytesTree.1 (.obj [("x", .str "bytes:1")]) =
      .ok (bytesTree.1, {}) := by
    rw [AutoCommit.applyJson]
    simp [reconcileMap, reconcileFields, trimFields, bytesTree, reconcileProp.eq_def, hread,
      Json.sameLeaf, Json.isObject, Json.isArray, Fields.put, bind, Except.bind, pure, Except.pure,
      Changes.merge]
  rw [htarget]
  unfold Held.applyJson bytesHeld
  dsimp only
  rw [show plain.root (bytesTree, true) = bytesTree.1 from rfl, happly]
  rfl

theorem bytes_restored : Held.restore (some bytesHeld) (some textSave) =
    (.ok (), some bytesHeld) := by
  have htarget : Held.jsonOfSnapshot plain .crdt ((some textSave).getD plain.empty) =
      some (plain.serde.json (.map textTree.1)) := rfl
  have hheads : plain.heads ((bytesTree, true) : plain.Crdt) ≠ [] := List.cons_ne_nil _ _
  have hstay := bytes_stay
  unfold bytesHeld at hstay ⊢
  unfold Held.restore
  dsimp only
  rw [if_neg hheads, htarget]
  dsimp only
  rw [hstay]
  rfl

/-- The board as it is opened, and its history with the second version undone. -/
noncomputable def bytesOpened : State plain :=
  (State.start (fun _ => bytesHistory) ["board", "board"]).docFor "board" .crdt

noncomputable def textHistory : History plain :=
  { bytesHistory with head := some 0, redo := [1] }

theorem bytes_undone : (bytesOpened.undo fun _ => true).2 =
    (bytesOpened.setHistory "board" textHistory).put "board" (some bytesHeld) := by
  change (bytesOpened.applyRevert "board" textHistory).2 = _
  have hdocs : bytesOpened.docs "board" = some bytesHeld := rfl
  have hbytes : textHistory.headBytes = some textSave := rfl
  rw [State.applyRevert, hdocs, hbytes, bytes_restored]

/-- What is asked of every run: a document in memory, with no draft, has the JSON of its head's
snapshot; with no head, that of the empty object. -/
def ToldSo (B : Backend) (kinds : DocKind → Prop) : Prop :=
  ∀ (history : DocId → History B) (order : List DocId) (w : Watched B),
    (system B).Runs (fun _ _ => True) (Watched.start history order) w →
      ∀ (doc : DocId) (held : Held B), w.state.docs doc = some held → kinds held.kind →
        w.drafts doc = none → ∀ j, (match (w.state.history doc).headBytes with
          | none => some (.obj [])
          | some bytes => Held.jsonOfSnapshot B held.kind bytes) = some j → held.json = j

/-- A blob with no history is not the empty object; and bytes stay where a text is put back. -/
theorem not_told_so : (¬∀ B : Backend, B.Sound → ToldSo B fun _ => True) ∧
    ¬∀ B : Backend, B.Sound → ToldSo B fun kind => kind = .crdt := by
  constructor
  · intro hclaim
    have hrun : (system plain).Runs (fun _ _ => True) (Watched.start (fun _ => .empty plain) [])
        ((system plain).run (Watched.start (fun _ => .empty plain) []) [.openDoc "sketch" .blob]) :=
      System.runs_of_list ⟨trivial, trivial, trivial⟩
    have hjson := hclaim plain plain_sound _ _ _ hrun "sketch" (.blob none) rfl trivial rfl _ rfl
    cases hjson
  · intro hclaim
    have hrun : (system plain).Runs (fun _ _ => True)
        (Watched.start (fun _ => bytesHistory) ["board", "board"])
        ((system plain).run (Watched.start (fun _ => bytesHistory) ["board", "board"])
          [.openDoc "board" .crdt, .undo fun _ => true]) :=
      System.runs_of_list ⟨trivial, trivial, trivial, trivial, trivial⟩
    generalize hw : (system plain).run (Watched.start (fun _ => bytesHistory) ["board", "board"])
      [.openDoc "board" .crdt, .undo fun _ => true] = w at hrun
    have hstate : w.state =
        (bytesOpened.setHistory "board" textHistory).put "board" (some bytesHeld) := by
      rw [← hw, ← bytes_undone]
      rfl
    have hheld : w.state.docs "board" = some bytesHeld := by rw [hstate, State.docs_put_self]
    have hhistory : w.state.history "board" = textHistory := by
      rw [hstate, State.history_put, State.history_setHistory_self]
    have hdraft : w.drafts "board" = none := by
      rw [← hw]
      refine if_neg ?_
      change ((bytesOpened.undo fun _ => true).2.history "board").head ≠
        (bytesOpened.history "board").head
      rw [bytes_undone, State.history_put, State.history_setHistory_self]
      exact (nofun : some 0 ≠ some 1)
    have hjson := hclaim plain plain_sound _ _ _ hrun "board" _ hheld rfl hdraft
      (plain.serde.json (.map textTree.1)) (by rw [hhistory]; rfl)
    simp [Held.json, bytesHeld, AutoSerde.json, AutoSerde.jsonEntries, AutoSerde.scalar, plain,
      AutoSerde.plainly, bytesTree, textTree] at hjson

end Shelf

end LocalSpace
