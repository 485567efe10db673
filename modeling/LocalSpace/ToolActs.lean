import LocalSpace.Acts

/-!
# By which acts documents change and tools run

The operations below a request, from the document store up to `callTool`, and the acts each
of them goes by. A change to one document is made by a `Rewriting` relation: what a checked
writer does (`checked`), or what is done whoever asks (`unchecked`).
-/

namespace LocalSpace

open Library

variable {H : Host} {ps : List Part}

/-! ### What the document store's operations touch -/

namespace DocStore

variable {s t u : DocStore H} {ds : List DocId} {d doc : DocId}

theorem exists?_iff : s.exists? d = true ↔ ∃ x, s.docs.lookup d = some x := by
  simp [exists?, Option.isSome_iff_exists]

theorem Touches.refl (ds : List DocId) (s : DocStore H) : s.Touches ds s :=
  ⟨fun _ _ => rfl, fun _ _ => rfl, fun _ => id, fun _ => id⟩

theorem Touches.trans (hst : s.Touches ds t) (htu : t.Touches ds u) : s.Touches ds u where
  content d hd := (htu.content d hd).trans (hst.content d hd)
  kind d hd := (htu.kind d hd).trans (hst.kind d hd)
  loaded d h := htu.loaded d (hst.loaded d h)
  file d h := htu.file d (hst.file d h)

theorem Touches.exists?_eq (h : s.Touches ds t) (hd : d ∉ ds) : t.exists? d = s.exists? d := by
  simp only [exists?, h.content d hd]

/-- One document is put, of the kind given where that changes. -/
private theorem touches_insert {x : Doc H} {kinds : Table DocId DocKind}
    (hkinds : ∀ d, d ≠ doc → kinds.lookup d = s.kinds.lookup d)
    (hfile : s.IsFile doc → (∃ bytes, x = .blob bytes) ∧ kinds.lookup doc = some .blob) :
    s.Touches [doc] ⟨s.docs.insert doc x, kinds⟩ where
  content d hd := AList.lookup_insert_ne (by simpa using hd)
  kind d hd := hkinds d (by simpa using hd)
  loaded d h := by
    by_cases hd : d = doc
    · subst hd
      simp [exists?]
    · simpa [exists?, AList.lookup_insert_ne hd] using h
  file d h := by
    by_cases hd : d = doc
    · subst hd
      obtain ⟨⟨bytes, rfl⟩, hk⟩ := hfile h
      exact ⟨⟨bytes, AList.lookup_insert _⟩, hk⟩
    · exact ⟨h.1.imp fun bytes hb => (AList.lookup_insert_ne hd).trans hb,
        (hkinds d hd).trans h.2⟩

theorem ensure_touches (s : DocStore H) (doc : DocId) (kind : DocKind) :
    s.Touches [doc] (s.ensure doc kind) := by
  unfold ensure
  split
  · exact .refl _ _
  · next h =>
    refine touches_insert (fun d hd => AList.lookup_insert_ne hd) fun hfile => ?_
    obtain ⟨⟨bytes, hb⟩, -⟩ := hfile
    exact absurd (exists?_iff.2 ⟨_, hb⟩) h

@[simp] theorem exists?_ensure_self (s : DocStore H) (doc : DocId) (kind : DocKind) :
    (s.ensure doc kind).exists? doc = true := by
  unfold ensure
  split
  · assumption
  · simp [exists?]

theorem applyJson_touches (s : DocStore H) (doc : DocId) (next : Json) :
    s.Touches [doc] (s.applyJson doc next).2 := by
  unfold applyJson
  split
  · exact .refl _ _
  · next x hx =>
    refine touches_insert (fun _ _ => rfl) fun hfile => ⟨?_, hfile.2⟩
    obtain ⟨bytes, hb⟩ := hfile.1
    obtain rfl : x = .blob bytes := by simpa [hx] using hb
    exact ⟨_, rfl⟩

@[simp] theorem exists?_applyJson (s : DocStore H) (doc d : DocId) (next : Json) :
    (s.applyJson doc next).2.exists? d = s.exists? d := by
  unfold applyJson
  split
  · rfl
  · next x hx =>
    by_cases hd : d = doc
    · subst hd
      simp [exists?, put, hx]
    · simp [exists?, put, AList.lookup_insert_ne hd]

theorem restore_touches (s : DocStore H) (doc : DocId) (bytes : Option Bytes) :
    s.Touches [doc] (s.restore doc bytes).2 := by
  unfold restore
  split
  · next hkind =>
    split
    · split
      · exact .refl _ _
      · refine touches_insert (fun d hd => AList.lookup_insert_ne hd) fun hfile => ?_
        simp [kind, hfile.2] at hkind
    · split
      · exact .refl _ _
      · exact s.applyJson_touches doc _
  · exact touches_insert (fun d hd => AList.lookup_insert_ne hd)
      fun _ => ⟨⟨_, rfl⟩, AList.lookup_insert _⟩

theorem receiveSync_touches (s : DocStore H) (doc : DocId) (state : H.Sync) (message : Bytes) :
    s.Touches [doc] (s.receiveSync doc state message).2.2 := by
  unfold receiveSync
  split
  · next am hx =>
    split
    · exact .refl _ _
    · refine touches_insert (fun _ _ => rfl) fun hfile => ?_
      obtain ⟨⟨bytes, hb⟩, -⟩ := hfile
      simp [hx] at hb
  · exact .refl _ _

end DocStore

namespace Dag

theorem Touches.refl (ds : List DocId) (s : Dag) : s.Touches ds s :=
  fun _ _ => rfl

theorem commit_touches (dag : Dag) (e : Entry) (idNow atNow : Nat) :
    dag.Touches [e.doc] (dag.commit H e idNow atNow).2 :=
  fun _ hd => AList.lookup_insert_ne (by simpa using hd)

theorem setHead_touches (dag : Dag) (doc : DocId) (target : Option CommitId) :
    dag.Touches [doc] (dag.setHead doc target) := by
  intro d hd
  have hd : d ≠ doc := by simpa using hd
  cases target with
  | none => exact AList.lookup_erase_ne hd
  | some p => exact AList.lookup_insert_ne hd

end Dag

/-! ### Bringing a document in -/

/-- Who is older of two documents is one of them. -/
private theorem foldl_older_mem (e : DocId × DocumentRecord)
    (rest : List (DocId × DocumentRecord)) : rest.foldl Core.older e ∈ e :: rest := by
  induction rest generalizing e with
  | nil => simp
  | cons x rest ih =>
    have := ih (Core.older e x)
    rw [List.foldl_cons]
    rcases List.mem_cons.1 this with h | h
    · rw [h]
      unfold Core.older
      split <;> simp
    · exact List.mem_cons_of_mem _ (List.mem_cons_of_mem _ h)

/-- The document found for a harness is recorded as the harness's in the workspace. -/
theorem Core.existingDocumentOf_spec {c : Core H} {harness : HarnessId} {d : DocId}
    (h : c.existingDocumentOf harness = some d) :
    ∃ r, c.store.getDocument d = some r ∧ r.workspace = c.mine.workspace ∧
      r.harness = some harness := by
  unfold existingDocumentOf at h
  split at h
  · cases h
  · next e rest heq =>
    have hmem := foldl_older_mem e rest
    rw [← heq, List.mem_filter] at hmem
    obtain ⟨hall, hof⟩ := hmem
    obtain ⟨x, hx, hxe⟩ := List.mem_map.1 hall
    have hlookup : c.store.documents.lookup x.1 = some x.2 := AList.mem_lookup_iff.2 hx
    simp only [isDocumentOf, Bool.decide_and, Bool.and_eq_true, decide_eq_true_eq] at hof
    cases h
    rw [← hxe] at hof ⊢
    exact ⟨x.2, hlookup, hof⟩

theorem restoreFromDag_run (doc : DocId) (s : Core H) : ∃ docs events,
    s.docs.Touches [doc] docs ∧ (∀ e ∈ events, e.event.isPatch = false) ∧
    ((restoreFromDag doc).run s).2 = { s with docs := docs, events := s.events ++ events } := by
  have hsame : s = { s with docs := s.docs, events := s.events ++ [] } := by simp
  unfold restoreFromDag
  rw [run_bind, run_get]
  dsimp only
  split
  · exact ⟨s.docs, [], .refl _ _, by simp, hsame⟩
  · split
    · exact ⟨s.docs, _, .refl _ _, by simp; rfl, rfl⟩
    · next commit _ _ bytes _ =>
      rw [run_bind, run_modify]
      dsimp only
      split
      · exact ⟨_, [], s.docs.restore_touches _ _, by simp, by simp; rfl⟩
      · exact ⟨_, _, s.docs.restore_touches _ _, by simp; rfl, rfl⟩

theorem bringIn_does {d : DocId} {r : DocumentRecord} {s : Core H} (title : String)
    (kind : DocKind) (hr : s.store.getDocument d = some r)
    (hw : r.workspace = s.mine.workspace) (hh : r.harness.isSome = true)
    (hd : s.docs.exists? d = false) :
    Does Act [.bring] s ((bringIn d title kind).run s).2 := by
  unfold bringIn
  rw [run_bind, run_modify]
  dsimp only
  obtain ⟨docs, events, htouch, hev, hrun⟩ := restoreFromDag_run d
    { s with
      docs := s.docs.ensure d kind
      access := s.access.addDocument d s.mine.workspace title none }
  rw [hrun]
  have hensure : s.docs.Touches [d] docs := (s.docs.ensure_touches d kind).trans htouch
  have hloaded : docs.exists? d = true :=
    htouch.loaded d (s.docs.exists?_ensure_self d kind)
  exact Does.single (p := .bring) ⟨d, r, title, docs, s.reads, events, hr, hw, hh, hd, hloaded,
    hensure, Nat.le_refl _, hev, rfl⟩ (by simp)

/-- The document of a harness, found or made, is recorded as one in the caller's
workspace. -/
theorem harnessDocument_run (harness : HarnessId) (title : String) (kind : DocKind)
    (s : Core H) :
    Does Act [.record] s ((harnessDocument harness title kind).run s).2 ∧
    ∃ r, ((harnessDocument harness title kind).run s).2.store.getDocument
        ((harnessDocument harness title kind).run s).1 = some r ∧
      r.workspace = ((harnessDocument harness title kind).run s).2.mine.workspace ∧
      r.harness = some harness := by
  unfold harnessDocument
  rw [run_bind, run_get]
  dsimp only
  split
  · next id h => exact ⟨.refl, Core.existingDocumentOf_spec h⟩
  · next h =>
    refine ⟨Does.single (p := .record) ⟨harness, title, kind, H.clock (s.reads + 1), h, rfl⟩
      (by simp), ?_⟩
    exact ⟨_, AList.lookup_insert _, rfl, rfl⟩

/-- Bringing in a harness's document on first use. -/
abbrev openActs : List Part := [.record, .bring]

theorem docFor_does (harness : HarnessId) : Within (Does Act openActs) (docFor (H := H) harness) := by
  unfold docFor
  refine Within.get_bind fun s => ?_
  split
  · exact .refl
  · next h _ =>
    split
    · rw [run_bind]
      obtain ⟨hdoes, r, hr, hw, hh⟩ := harnessDocument_run harness h.title h.docKind s
      refine (hdoes.mono (by simp)).trans ?_
      rw [run_bind, run_get]
      dsimp only
      split
      · next hload =>
        rw [run_bind]
        exact (bringIn_does _ _ hr hw (by simp [hh]) (by simpa using hload)).mono (by simp)
      · exact .refl
    · exact .refl

/-- The document `docFor` answers with is recorded as the harness's in the caller's workspace,
and loaded. -/
theorem docFor_some {harness : HarnessId} {s : Core H} {d : DocId}
    (h : ((docFor harness).run s).1 = some d) :
    (∃ r, ((docFor harness).run s).2.store.getDocument d = some r ∧
      r.workspace = ((docFor harness).run s).2.mine.workspace ∧ r.harness = some harness) ∧
    ((docFor harness).run s).2.docs.exists? d = true := by
  unfold docFor at h ⊢
  rw [run_bind, run_get] at h ⊢
  dsimp only at h ⊢
  split at h
  · cases h
  · next p _ =>
    split at h
    · next hharness =>
      rw [if_pos hharness]
      obtain ⟨-, r, hr, hw, hh⟩ := harnessDocument_run harness p.title p.docKind s
      rw [run_bind, run_bind, run_get] at h ⊢
      dsimp only at h ⊢
      split at h
      · next hload =>
        rw [if_pos hload]
        cases h
        rw [run_bind]
        obtain ⟨docs, events, htouch, -, hrun⟩ := restoreFromDag_run
          ((harnessDocument harness p.title p.docKind).run s).1
          { ((harnessDocument harness p.title p.docKind).run s).2 with
            docs := ((harnessDocument harness p.title p.docKind).run s).2.docs.ensure
              ((harnessDocument harness p.title p.docKind).run s).1 p.docKind
            access := ((harnessDocument harness p.title p.docKind).run s).2.access.addDocument
              ((harnessDocument harness p.title p.docKind).run s).1
              ((harnessDocument harness p.title p.docKind).run s).2.mine.workspace p.title none }
        unfold bringIn
        rw [run_bind, run_modify]
        dsimp only
        rw [hrun]
        exact ⟨⟨r, hr, hw, hh⟩, htouch.loaded _ (DocStore.exists?_ensure_self _ _ _)⟩
      · next hload =>
        rw [if_neg hload]
        cases h
        rw [Bool.not_eq_true', Bool.not_eq_false] at hload
        exact ⟨⟨r, hr, hw, hh⟩, hload⟩
    · cases h

/-! ### Replicas told of a change -/

theorem syncReplica_does (doc : DocId) (peer : String) (hps : Part.patch ∈ ps) :
    Within (Does Act ps) (syncReplica (H := H) doc peer) :=
  fun _ => Does.single (p := .patch) ⟨doc, peer, rfl⟩ hps

/-- A document's readers and replicas told. -/
abbrev toldActs : List Part := [.note, .patch]

theorem docChanged_does (doc : DocId) : Within (Does Act toldActs) (docChanged (H := H) doc) :=
  (emitAll_does rfl (by simp)).bind fun _ => Within.get.bind fun _ => Within.forM fun _ _ =>
    syncReplica_does _ _ (by simp)

theorem takeReplica_does (doc : DocId) (peer : String) (hps : Part.unreplica ∈ ps) :
    Within (Does Act ps) (takeReplica (H := H) doc peer) := by
  unfold takeReplica
  refine Within.bind Within.get fun c => ?_
  split
  · exact Within.pure _
  · exact (Within.change_by Part.unreplica hps (fun s => ⟨doc, peer, .inl rfl⟩)).bind fun _ =>
      Within.pure _

/-! ### Changing a document -/

/-- Whether the active caller may change a document. -/
def Core.mayEdit (c : Core H) (doc : DocId) : Prop :=
  c.may doc .edit = true ∧ c.active.isViewer = false

/-- What is done while one document is changed: besides the change itself, what the caller's
desk and ledger and the document's readers are told. -/
structure Rewriting (R : Core H → Core H → Prop) (doc : DocId) : Prop where
  preorder : IsPreorder (Core H) R
  beside : ∀ {s t}, Does Act [.note, .patch, .desk, .ledger] s t → R s t
  change : ∀ {s docs dag}, s.docs.Touches [doc] docs → s.dag.Touches [doc] dag →
    (∀ d, docs.exists? d = s.docs.exists? d) → R s { s with docs := docs, dag := dag }

/-- Changing a document unchecked. -/
abbrev looseActs : List Part := [.note, .patch, .desk, .ledger, .rewrite]

/-- Changing a document the caller may edit. -/
abbrev strictActs : List Part := [.note, .patch, .desk, .ledger, .write]

theorem Rewriting.unchecked (doc : DocId) : Rewriting (H := H) (Does Act looseActs) doc where
  preorder := inferInstance
  beside h := h.mono (by simp)
  change hdocs hdag hex := Does.single (p := .rewrite) ⟨[doc], _, _, hdocs, hdag, hex, rfl⟩
    (by simp)

/-- The acts that leave a caller's rights on a document as they are. -/
theorem mayEdit_of_does {doc : DocId} {s t : Core H}
    (h : Does Act [.note, .patch, .desk, .ledger, .unreplica] s t) (hs : s.mayEdit doc) :
    t.mayEdit doc := by
  refine h.preserves (I := fun t => t.mayEdit doc) ?_ hs
  intro p hp s t hact hs
  simp only [List.mem_cons, List.not_mem_nil, or_false] at hp
  rcases hp with rfl | rfl | rfl | rfl | rfl
  · obtain ⟨_, _, _, _, _, _, _, rfl⟩ := hact
    exact hs
  · obtain ⟨d, peer, rfl⟩ := hact
    unfold syncReplica
    rw [run_bind, run_get]
    dsimp only
    split
    · exact hs
    · rw [run_bind, run_modify]
      dsimp only
      split <;> exact hs
  · obtain ⟨_, _, _, rfl⟩ := hact
    exact hs
  · obtain ⟨_, _, _, _, rfl⟩ := hact
    exact hs
  · obtain ⟨_, _, rfl | rfl⟩ := hact <;> exact hs

theorem Rewriting.checked (doc : DocId) :
    Rewriting (H := H) (Keeping (fun c => c.mayEdit doc) (Does Act strictActs)) doc where
  preorder := inferInstance
  beside h hs := ⟨h.mono (by simp), mayEdit_of_does (h.mono (by simp)) hs⟩
  change hdocs hdag _ hs := ⟨Does.single (p := .write) ⟨[doc], _, _, by simpa using hs.1, hs.2,
    hdocs, hdag, rfl⟩ (by simp), hs⟩

section Rewriting

variable {R : Core H → Core H → Prop} {doc : DocId} (hR : Rewriting R doc)

include hR

theorem Rewriting.within {α : Type} {m : Program H α}
    (hm : Within (Does Act [.note, .patch, .desk, .ledger]) m) : Within R m :=
  hm.mono fun _ _ h => hR.beside h

theorem applyJson_within (next : Json) : Within R (applyJson doc next) := by
  have := hR.preorder
  exact Within.get_bind fun s => hR.change (s.docs.applyJson_touches doc next) (.refl _ _)
    fun d => s.docs.exists?_applyJson doc d next

theorem commitDoc_within {e : Dag.Entry} (he : e.doc = doc) : Within R (commitDoc e) := by
  have := hR.preorder
  refine Within.bind (hR.within (nowMs_does (by simp))) fun idNow => ?_
  refine Within.bind (hR.within (nowMs_does (by simp))) fun atNow => Within.get_bind fun s => ?_
  exact hR.change (DocStore.Touches.refl _ s.docs) (he ▸ s.dag.commit_touches e idNow atNow)
    fun _ => rfl

theorem commitSurface_within (harness : HarnessId) (tool : String) (changes : Changes) :
    Within R (commitSurface doc harness tool changes) := by
  have := hR.preorder
  exact Within.get.bind fun _ => (commitDoc_within hR rfl).bind fun _ => Within.pure _

theorem commitTool_within (owner tool : String) (params : Json) (diffSummary : String)
    (author : Author) : Within R (commitTool doc owner tool params diffSummary author) := by
  have := hR.preorder
  exact Within.get.bind fun _ => (commitDoc_within hR rfl).bind fun _ => Within.pure _

theorem docChanged_within : Within R (docChanged doc) :=
  hR.within ((docChanged_does doc).more (by simp))

theorem applyOutput_within (owner tool : String) (params : Json) (author : Author)
    (out : HarnessOutput) : Within R (applyOutput doc owner tool params author out) := by
  have := hR.preorder
  unfold applyOutput
  split
  · exact Within.pure _
  · refine (applyJson_within hR _).bind fun r => ?_
    split
    · exact Within.pure _
    · split
      · exact Within.pure _
      · exact (commitTool_within hR _ _ _ _ _).bind fun _ =>
          (docChanged_within hR).bind fun _ => Within.pure _

end Rewriting

/-- A document put back, by someone who may edit it. -/
theorem applyRevert_within (revert : Revert) :
    Within (Keeping (fun c => c.mayEdit revert.doc) (Does Act strictActs))
      (applyRevert (H := H) revert) := by
  have hR := Rewriting.checked (H := H) revert.doc
  unfold applyRevert
  refine Within.get_bind fun s hs => ?_
  let docs := (s.docs.restore revert.doc revert.bytes).2
  have hput : Does Act strictActs s { s with docs := docs } :=
    Does.single (p := .write) ⟨[revert.doc], docs, s.dag, by simpa using hs.1, hs.2,
      s.docs.restore_touches _ _, .refl _ _, rfl⟩ (by simp)
  rw [run_bind, run_modify]
  dsimp only
  have hrest : Within (Keeping (fun c => c.mayEdit revert.doc) (Does Act strictActs))
      (do
        modify fun c => { c with providers := [] }
        docChanged revert.doc
        notice .info revert.summary
        return .ok () : Program H (Except String Unit)) := by
    exact Within.bind (hR.within (providers_does (fun _ => []) (by simp))) fun _ =>
      (docChanged_within hR).bind fun _ =>
        (hR.within (notice_does _ _ (by simp))).bind fun _ => Within.pure _
  split
  · exact ⟨hput, hs⟩
  · obtain ⟨hdo, hend⟩ := hrest { s with docs := docs } hs
    exact ⟨hput.trans hdo, hend⟩

/-- Rewriting the environment's lock. -/
abbrev lockActs : List Part := [.note, .lock]

theorem writeLock_does : Within (Does Act lockActs) (writeLock (H := H)) := by
  unfold writeLock
  refine Within.bind Within.get fun c => ?_
  refine Within.bind (Within.change_by Part.lock (by simp) fun s =>
    ⟨_, s.dag, s.docs.ensure_touches _ _, .refl _ _, rfl⟩) fun _ => ?_
  have happly : ∀ next, Within (Does Act lockActs) (applyJson (H := H) lockDoc next) :=
    fun next => Within.get_bind fun s => Does.single (p := .lock)
      ⟨_, s.dag, s.docs.applyJson_touches lockDoc next, .refl _ _, rfl⟩ (by simp)
  have hcommit : ∀ e : Dag.Entry, e.doc = lockDoc →
      Within (Does Act lockActs) (commitDoc (H := H) e) := fun e he =>
    (nowMs_does (by simp)).bind fun idNow => (nowMs_does (by simp)).bind fun atNow =>
      Within.get_bind fun s =>
      Does.single (p := .lock) ⟨s.docs, _, .refl _ _, he ▸ s.dag.commit_touches e idNow atNow, rfl⟩
        (by simp)
  refine (happly _).bind fun r => ?_
  split
  · exact trace_does _ (by simp)
  · split
    · exact Within.get.bind fun _ => (hcommit _ rfl).bind fun _ => Within.pure _
    · exact Within.pure _

/-! ### What the model is shown -/

theorem ensureRuntime_does (harness : HarnessId) (hps : Part.note ∈ ps) :
    Within (Does Act ps) (ensureRuntime (H := H) harness) :=
  (nextRead_does hps).bind fun _ => Within.pure _

theorem wakeProvider_does (harness : HarnessId) (hps : Part.note ∈ ps) :
    Within (Does Act ps) (wakeProvider (H := H) harness) := by
  unfold wakeProvider
  refine Within.bind Within.get fun c => ?_
  split
  · exact Within.pure _
  · split
    · refine (ensureRuntime_does _ hps).bind fun r => ?_
      split
      · exact Within.pure _
      · exact trace_does _ hps
    · exact Within.pure _

theorem contextBlock_does (harness : HarnessId) (doc : DocId) (budget : Nat) (focused : Bool)
    (hps : Part.note ∈ ps) :
    Within (Does Act ps) (contextBlock (H := H) harness doc budget focused) := by
  unfold contextBlock
  refine Within.bind Within.get fun c => Within.bind Within.get fun c' => ?_
  split
  · exact Within.pure _
  · refine (nextRead_does hps).bind fun n => ?_
    dsimp only
    split
    · exact Within.pure _
    · exact (providers_does _ hps).bind fun _ => Within.pure _

theorem assemble_does (docIds : List (HarnessId × DocId)) (wanted : List (HarnessId × Nat))
    (spent : Nat) (hps : Part.note ∈ ps) :
    Within (Does Act ps) (assemble (H := H) docIds wanted spent) := by
  induction wanted generalizing spent with
  | nil => exact Within.pure _
  | cons w rest ih =>
    unfold assemble
    refine Within.bind Within.get fun c => ?_
    split
    · exact Within.pure _
    · split
      · refine (contextBlock_does _ _ _ _ hps).bind fun b => ?_
        split
        · exact (ih _).bind fun _ => Within.pure _
        · exact ih _
      · exact ih _

/-- What a context is gathered by. -/
abbrev gatherActs : List Part := [.note, .record, .bring]

theorem docsFor_does (wanted : List HarnessId) :
    Within (Does Act openActs) (docsFor (H := H) wanted) := by
  induction wanted with
  | nil => exact Within.pure _
  | cons id rest ih =>
    unfold docsFor
    refine (docFor_does id).bind fun d => ?_
    split
    · exact ih.bind fun _ => Within.pure _
    · exact ih

theorem contextBlocks_does : Within (Does Act gatherActs) (contextBlocks (H := H)) :=
  Within.get.bind fun _ => (Within.forM fun _ _ => wakeProvider_does _ (by simp)).bind fun _ =>
    ((docsFor_does _).more (by simp)).bind fun _ => assemble_does _ _ _ (by simp)

/-! ### The ledger, handoffs and artifacts -/

/-- Keeping the caller's ledger. -/
abbrev ledgerActs : List Part := [.note, .ledger]

theorem changeTask_does (change : Task → Task) (hps : Part.ledger ∈ ps) :
    Within (Does Act ps) (changeTask (H := H) change) :=
  Within.change_by Part.ledger hps fun s =>
    ⟨s.mine.run, change s.mine.task, s.mine.proposals, s.store.ledgers, rfl⟩

theorem emitTask_does : Within (Does Act ledgerActs) (emitTask (H := H)) :=
  Within.bind (Within.change_by Part.ledger (by simp) fun s =>
    ⟨s.mine.run, s.mine.task, s.mine.proposals, _, rfl⟩) fun _ =>
      Within.get.bind fun _ => emit_does rfl (by simp)

theorem taskProgress_does (tool : String) (outcome : ToolOutcome) :
    Within (Does Act ledgerActs) (taskProgress (H := H) tool outcome) := by
  unfold taskProgress
  refine Within.bind Within.get fun c => ?_
  split
  · exact Within.pure _
  · split
    · exact Within.pure _
    · exact (changeTask_does _ (by simp)).bind fun _ => emitTask_does

theorem resolveHandoff_does (owner : HarnessId) (params : Json)
    (hps : Part.note ∈ ps) :
    Within (Does Act ps) (resolveHandoff (H := H) owner params) := by
  unfold resolveHandoff
  split
  · exact Within.pure _
  · refine Within.bind Within.get fun c => ?_
    split
    · exact Within.pure _
    · refine Within.bind Within.get fun c => ?_
      split
      · exact Within.pure _
      · exact (auditOn_does _ _ _ _ hps).bind fun _ => Within.pure _

theorem registerArtifact_does (owner : HarnessId) (doc : DocId) (commit : Option CommitId)
    (spec : Json) (fallbackSummary : String) (file : Option ArtifactFile) :
    Within (Does Act ledgerActs)
      (registerArtifact (H := H) owner doc commit spec fallbackSummary file) := by
  unfold registerArtifact
  refine Within.bind Within.get fun c => ?_
  split
  · exact Within.pure _
  · exact (changeTask_does _ (by simp)).bind fun _ => (auditOn_does _ _ _ _ (by simp)).bind fun _ =>
      emitTask_does.bind fun _ => Within.pure _

/-- Keeping an export as the document `doc`. -/
abbrev exportActs (doc : DocId) : List Part := [.note, .record, .bring, .ledger, .exported doc]

theorem keepExport_does (e : Export) (ownDoc : DocId) (source : CommitId) (name : String) :
    Within (Does Act [.note, .exported (e.blobDoc H)]) (keepExport (H := H) e ownDoc source name) := by
  intro s
  let entry : Dag.Entry :=
    { doc := e.blobDoc H
      harness := e.harness
      tool := "surface:export"
      params := .obj [("commit", .str source), ("document", .str ownDoc), ("kind", .str e.kind),
        ("name", .str name)]
      bytes := e.bytes
      diffSummary := s!"exported {name}, {e.bytes.length} bytes of {e.kind}"
      author := .user
      run := none }
  let kept : Core H :=
    { s with
      docs := s.docs.ensure (e.blobDoc H) .blob
      access := s.access.addDocument (e.blobDoc H) s.mine.workspace name none
      dag := (s.dag.commit H entry (H.clock s.reads) (H.clock (s.reads + 1))).2
      store := s.store.putDocument (e.blobDoc H)
        (e.record s name ownDoc source (H.clock (s.reads + 2)))
      reads := s.reads + 3 }
  have hkept : Does Act [.note, .exported (e.blobDoc H)] s kept :=
    Does.single (p := .exported (e.blobDoc H))
      ⟨H.blake3 e.bytes, name, _, _, s.reads + 3, rfl, rfl, rfl, rfl, rfl,
        s.dag.commit_touches entry _ _, Nat.le_add_right _ _, rfl⟩ (by simp)
  refine hkept.trans ?_
  exact (auditOn_does (e.blobDoc H) "document.create" _ "ok" (by simp) :
    Within (Does Act [.note, .exported (e.blobDoc H)]) (auditOn (H := H) _ _ _ _)) kept

theorem produceArtifact_does (e : Export) :
    Within (Does Act (exportActs (e.blobDoc H))) (produceArtifact (H := H) e) := by
  unfold produceArtifact
  refine Within.bind Within.get fun c => ?_
  split
  · exact Within.pure _
  · refine ((docFor_does _).more (by simp)).bind fun own => ?_
    split
    · exact Within.pure _
    · refine Within.bind Within.get fun c => ?_
      split
      · exact Within.pure _
      · refine ((keepExport_does _ _ _ _).more (by simp)).bind fun commit => ?_
        refine ((registerArtifact_does _ _ _ _ _ _).more (by simp)).bind fun r => ?_
        split
        · exact Within.pure _
        · refine (emit_does rfl (by simp)).bind fun _ => Within.bind Within.get fun c => ?_
          split <;> exact Within.pure _

/-! ### Tool calls -/

theorem focusOn_does (harness : HarnessId) (hps : Part.desk ∈ ps) :
    Within (Does Act ps) (focusOn (H := H) harness) :=
  Within.change_by Part.desk hps (fun s => ⟨_, s.mine.pinned, _, rfl⟩)

/-- Core's own tools. -/
abbrev coreToolActs : List Part := [.note, .desk, .ledger, .ask]

theorem askApproval_does (label : String) (kind : ApprovalKind) (tool : String) (params : Json)
    (prompt : String) :
    Within (Does Act [.note, .ask]) (askApproval (H := H) label kind tool params prompt) :=
  Within.get.bind fun _ => Within.bind (Within.change_by Part.ask (by simp) fun _ =>
    ⟨_, tool, params, rfl⟩)
    fun _ => (emit_does rfl (by simp)).bind fun _ => Within.pure _

theorem findCapability_does (params : Json) :
    Within (Does Act coreToolActs) (findCapability (H := H) params) := by
  unfold findCapability
  refine Within.bind Within.get fun c => ?_
  dsimp only
  split
  · exact Within.pure _
  · exact (focusOn_does _ (by simp)).bind fun _ => Within.pure _

theorem taskPlan_does (params : Json) :
    Within (Does Act coreToolActs) (taskPlan (H := H) params) := by
  unfold taskPlan
  refine Within.bind Within.get fun c => ?_
  split
  · exact Within.pure _
  · exact (changeTask_does _ (by simp)).bind fun _ => (emitTask_does.more (by simp)).bind fun _ =>
      Within.pure _

theorem taskNote_does (params : Json) :
    Within (Does Act coreToolActs) (taskNote (H := H) params) := by
  unfold taskNote
  dsimp only
  split
  · exact Within.pure _
  · exact (changeTask_does _ (by simp)).bind fun _ => (emitTask_does.more (by simp)).bind fun _ =>
      Within.get.bind fun _ => Within.pure _

theorem gateway_does (f : Core H → H.Gateway) (hps : Part.note ∈ ps) :
    Within (Does Act ps) (modify fun c => { c with gateway := f c } : Program H Unit) :=
  quiet_does (fun s => ⟨s.audit, f s, s.providers, by simp [Core.noted]⟩) hps

theorem webSearch_does (params : Json) :
    Within (Does Act coreToolActs) (webSearch (H := H) params) := by
  unfold webSearch
  refine (nextRead_does (by simp)).bind fun n => Within.bind Within.get fun c => ?_
  refine (gateway_does _ (by simp)).bind fun _ => ?_
  split <;> exact Within.pure _

theorem webFetch_does (params : Json) :
    Within (Does Act coreToolActs) (webFetch (H := H) params) := by
  unfold webFetch
  dsimp only
  refine Within.bind Within.get fun c => ?_
  split
  · exact Within.pure _
  · exact ((askApproval_does _ _ _ _ _).more (by simp))
  · refine (nextRead_does (by simp)).bind fun n => Within.bind Within.get fun c => ?_
    refine (gateway_does _ (by simp)).bind fun _ => ?_
    split
    · exact Within.pure _
    · exact (auditOn_does _ _ _ _ (by simp)).bind fun _ => Within.pure _

theorem callCoreTool_does (tool : String) (params : Json) :
    Within (Does Act coreToolActs) (callCoreTool (H := H) tool params) := by
  unfold callCoreTool
  refine Within.ite (fun _ => findCapability_does _) fun _ => ?_
  refine Within.ite (fun _ => taskPlan_does _) fun _ => ?_
  refine Within.ite (fun _ => taskNote_does _) fun _ => ?_
  refine Within.ite (fun _ => webSearch_does _) fun _ => ?_
  exact Within.ite (fun _ => webFetch_does _) fun _ => Within.pure _

theorem killOverBudget_does (harness : HarnessId) (asked : Nat)
    (hps : Part.note ∈ ps) :
    Within (Does Act ps) (killOverBudget (H := H) harness asked) :=
  Within.get.bind fun _ => (notice_does _ _ hps).bind fun _ =>
    (auditOn_does _ _ _ _ hps).bind fun _ => broadcastEnvironment_does hps

theorem runLogic_does {α : Type} (harness : HarnessId) (ask : Nat → α)
    (hps : Part.note ∈ ps) :
    Within (Does Act ps) (runLogic (H := H) harness ask) := by
  unfold runLogic
  refine Within.bind Within.get fun c => ?_
  split
  · exact Within.pure _
  · refine (ensureRuntime_does _ hps).bind fun r => ?_
    split
    · exact Within.pure _
    · refine (nextRead_does hps).bind fun n => ?_
      split
      · exact (killOverBudget_does _ _ hps).bind fun _ => Within.pure _
      · exact Within.pure _

theorem settleCall_does (doc : DocId) (owner tool : String) (decl : ToolDecl)
    (out : HarnessOutput) (diffSummary : String) (commit : Option CommitId) :
    Within (Does Act [.note, .desk, .ledger])
      (settleCall (H := H) doc owner tool decl out diffSummary commit) := by
  unfold settleCall
  refine (focusOn_does _ (by simp)).bind fun _ => (auditOn_does _ _ _ _ (by simp)).bind fun _ => ?_
  split
  · exact Within.pure _
  · refine ((registerArtifact_does _ _ _ _ _ _).more (by simp)).bind fun r => ?_
    split
    · exact Within.pure _
    · exact (trace_does _ (by simp)).bind fun _ => Within.pure _

/-- What a call does once it is let through, however its document is rewritten. -/
theorem execute_within {R : Core H → Core H → Prop} {doc : DocId} (hR : Rewriting R doc)
    (tool : String) (owner : HarnessId) (params : Json) (author : Author) (decl : ToolDecl) :
    Within R (execute tool owner doc params author decl) := by
  have := hR.preorder
  unfold execute
  refine Within.bind Within.get fun c => ?_
  refine Within.bind (hR.within (resolveHandoff_does _ _ (by simp))) fun r => ?_
  split
  · exact Within.pure _
  · refine Within.bind (hR.within (runLogic_does _ _ (by simp))) fun r => ?_
    split
    · exact Within.pure _
    · exact Within.bind (hR.within (auditOn_does _ _ _ _ (by simp))) fun _ => Within.pure _
    · refine Within.bind (Within.forM fun _ _ => hR.within (trace_does _ (by simp))) fun _ => ?_
      split
      · exact Within.pure _
      · refine (applyOutput_within hR _ _ _ _ _).bind fun r => ?_
        split
        · exact Within.pure _
        · exact hR.within ((settleCall_does _ _ _ _ _ _ _).more (by simp))

theorem refuseReadOnly_does (tool harness : String) (doc : DocId)
    (hps : Part.note ∈ ps) :
    Within (Does Act ps) (refuseReadOnly (H := H) tool harness doc) :=
  (auditOn_does _ _ _ _ hps).bind fun _ => Within.pure _

/-- A tool call. -/
abbrev callActs : List Part :=
  [.note, .patch, .desk, .ledger, .ask, .record, .bring, .write, .rewrite]

theorem callOn_does (tool : String) (params : Json) (author : Author) (owner : Installed)
    (doc : DocId) (decl : ToolDecl) :
    Within (Does Act callActs) (callOnWith (H := H) execute tool params author owner doc decl) := by
  unfold callOnWith
  refine Within.get_bind fun c => ?_
  have hloose : Within (Does Act callActs)
      (execute (H := H) tool owner.id doc params author decl) :=
    ((execute_within (Rewriting.unchecked doc) tool owner.id params author decl).more (by simp))
  split
  · exact .refl
  · split
    · exact refuseReadOnly_does _ _ _ (by simp) c
    · next hviewer =>
      split
      · exact .refl
      · split
        · exact ((auditOn_does _ _ _ _ (by simp)).bind fun _ => Within.pure _ : Within _ _) c
        · next hcheck =>
          split
          · exact .refl
          · split
            · exact (askApproval_does _ _ _ _ _).more (by simp) c
            · by_cases hkind : decl.kind = .write
              · -- a tool declared to write: what it writes was checked
                have hmay : c.mayEdit doc := by
                  refine ⟨?_, ?_⟩
                  · simp [Core.may, AccessControl.allows, ToolDecl.need, hkind] at hcheck ⊢
                    rw [hcheck]
                    rfl
                  · simpa [hkind] using hviewer
                have hstrict := execute_within (H := H) (Rewriting.checked doc) tool owner.id
                  params author decl
                exact ((hstrict c hmay).1).mono (by simp)
              · exact hloose c

theorem callTool_does (tool : String) (params : Json) (author : Author) :
    Within (Does Act callActs) (callTool (H := H) tool params author) := by
  unfold callTool callToolWith
  refine Within.bind Within.get fun c => ?_
  split
  · split
    · exact refuseReadOnly_does _ _ _ (by simp)
    · split
      · exact Within.pure _
      · exact ((callCoreTool_does _ _).more (by simp))
  · split
    · split <;> exact Within.pure _
    · refine ((docFor_does _).more (by simp)).bind fun d => ?_
      split
      · exact Within.pure _
      · split
        · exact Within.pure _
        · exact callOn_does _ _ _ _ _ _

end LocalSpace
