import LocalSpace.Landing

/-!
# What an export leaves of other documents

A file a surface exports becomes the document named by its content, registered in the workspace it
is exported in as one nobody tightened, whoever's document it was. So an export leaves what is
registered elsewhere and what is tightened here as it is exactly where nobody has the same file
elsewhere or tightened here, and the harness's own document, if it has to be brought in, was not
tightened either (`keepsOut_iff`); the same bytes exported in two workspaces move from the one
to the other (`export_crosses`).
-/

namespace LocalSpace

open Library

variable {H : Host} {c : Core H} {e : Export} {d own : DocId}

/-! ### The export's own document -/

/-- What bringing a harness's document in leaves: its registration alone, where it was not loaded,
and its record, where it is new. -/
structure Core.Opened (c t : Core H) (harness : HarnessId) (own : DocId) : Prop where
  dag : t.dag = c.dag
  mine : t.mine = c.mine
  loaded : c.docs.exists? own = true → t.access = c.access
  unloaded : c.docs.exists? own = false →
    ∃ title, t.access = c.access.addDocument own c.mine.workspace title none
  records : ∀ d, d ≠ own → t.store.getDocument d = c.store.getDocument d
  existing : c.existingDocumentOf harness ≠ none → t.store = c.store
  named : own = (c.existingDocumentOf harness).getD s!"doc_{H.uuid c.reads}"

theorem restoreFromDag_leaves (doc : DocId) (s : Core H) :
    ((restoreFromDag doc).run s).2.dag = s.dag ∧ ((restoreFromDag doc).run s).2.mine = s.mine ∧
      ((restoreFromDag doc).run s).2.access = s.access ∧
      ((restoreFromDag doc).run s).2.store = s.store := by
  obtain ⟨docs, events, -, -, hrun⟩ := restoreFromDag_run doc s
  rw [hrun]
  exact ⟨rfl, rfl, rfl, rfl⟩

theorem docFor_opened {harness : HarnessId} (h : ((docFor harness).run c).1 = some own) :
    c.Opened ((docFor harness).run c).2 harness own := by
  unfold docFor at h ⊢
  rw [run_bind, run_get] at h ⊢
  dsimp only at h ⊢
  split at h
  · cases h
  · next p _ =>
    split at h
    · next hharness =>
      rw [if_pos hharness]
      rw [run_bind, run_bind, run_get] at h ⊢
      dsimp only at h ⊢
      -- finding or making the document: its record alone
      have hmade : ∃ t : Core H, ((harnessDocument harness p.title p.docKind).run c).2 = t ∧
          t.dag = c.dag ∧ t.mine = c.mine ∧ t.access = c.access ∧ t.docs = c.docs ∧
          (∀ d, d ≠ ((harnessDocument harness p.title p.docKind).run c).1 →
            t.store.getDocument d = c.store.getDocument d) ∧
          (c.existingDocumentOf harness ≠ none → t.store = c.store) ∧
          ((harnessDocument harness p.title p.docKind).run c).1 =
            (c.existingDocumentOf harness).getD s!"doc_{H.uuid c.reads}" := by
        refine ⟨_, rfl, ?_⟩
        unfold harnessDocument
        rw [run_bind, run_get]
        dsimp only
        split
        · next hsome =>
          exact ⟨rfl, rfl, rfl, rfl, fun _ _ => rfl, fun _ => rfl, by rw [hsome]; rfl⟩
        · next hnone =>
          exact ⟨rfl, rfl, rfl, rfl, fun d hd => AList.lookup_insert_ne hd,
            fun h => absurd hnone h, by rw [hnone]; rfl⟩
      obtain ⟨t, ht, hdag, hmine, haccess, hdocs, hrecords, hexisting, hnamed⟩ := hmade
      rw [ht] at h ⊢
      have hown : ((harnessDocument harness p.title p.docKind).run c).1 = own := by
        split at h <;> exact Option.some.inj h
      rw [hown] at hrecords hnamed ⊢
      by_cases hload : t.docs.exists? own = true
      · rw [if_neg (by simp [hload])]
        refine ⟨hdag, hmine, fun _ => haccess, fun hunloaded => ?_, hrecords, hexisting,
          hnamed⟩
        rw [← hdocs, hload] at hunloaded
        cases hunloaded
      · rw [if_pos (by simpa using hload), run_bind]
        unfold bringIn
        rw [run_bind, run_modify]
        dsimp only
        obtain ⟨hdag', hmine', haccess', hstore'⟩ := restoreFromDag_leaves own
          { t with
            docs := t.docs.ensure own p.docKind
            access := t.access.addDocument own t.mine.workspace p.title none }
        refine ⟨hdag'.trans hdag, hmine'.trans hmine, fun hl => ?_, fun _ => ⟨p.title, ?_⟩,
          fun d hd => ?_, fun hx => ?_, hnamed⟩
        · rw [← hdocs] at hl
          exact absurd hl hload
        · refine haccess'.trans ?_
          rw [← haccess, ← hmine]
        · exact (congrArg (Store.getDocument · d) hstore').trans (hrecords d hd)
        · exact hstore'.trans (hexisting hx)
    · cases h

/-! ### The export -/

/-- What keeping an export changes of documents: the registration, the record and the history of
the one named by its content. -/
theorem keepExport_leaves (e : Export) (ownDoc : DocId) (source : CommitId) (name : String)
    (s : Core H) :
    ((keepExport e ownDoc source name).run s).2.access =
        s.access.addDocument (e.blobDoc H) s.mine.workspace name none ∧
      (∀ d, d ≠ e.blobDoc H →
        ((keepExport e ownDoc source name).run s).2.store.getDocument d = s.store.getDocument d ∧
        ((keepExport e ownDoc source name).run s).2.dag.head d = s.dag.head d) := by
  refine ⟨rfl, fun d hd => ⟨AList.lookup_insert_ne hd, ?_⟩⟩
  exact Dag.head_commit_ne s.dag _ _ hd

/-- What is a caller's own leaves what is registered of documents, their records and their
history. -/
private theorem kept_of_ledger {s t : Core H} (h : Does Act ledgerActs s t) :
    t.access.documents = s.access.documents ∧ t.store.documents = s.store.documents ∧
      t.dag = s.dag := by
  refine h.preserves (I := fun t => t.access.documents = s.access.documents ∧
    t.store.documents = s.store.documents ∧ t.dag = s.dag) (fun p hp u v ha hu => ?_) ⟨rfl, rfl, rfl⟩
  have hplain : p.plain = true ∧ p.admits = false ∧ p.records = false ∧ p.commits = false := by
    clear ha
    revert p
    decide
  have hframe := Act.frame hplain.1 ha
  exact ⟨(hframe.admitted hplain.2.1).trans hu.1, (hframe.records hplain.2.2.1).trans hu.2.1,
    (hframe.dag hplain.2.2.2).trans hu.2.2⟩

/-- A kept export: its own document brought in, and the document named by its content. -/
structure Core.Exported (c t : Core H) (e : Export) (own : DocId) : Prop where
  mid : ∃ s : Core H, c.Opened s e.harness own ∧
    (∃ name, t.access.documents =
      (s.access.addDocument (e.blobDoc H) c.mine.workspace name none).documents) ∧
    ∀ d, d ≠ e.blobDoc H → t.store.getDocument d = s.store.getDocument d ∧
      t.dag.head d = s.dag.head d

/-- The artifact in the ledger, and its telling. -/
theorem told_does (e : Export) (commit : Option CommitId) (spec : Json) (summary : String)
    (file : Option ArtifactFile) : Within (Does Act ledgerActs) (do
      match ← registerArtifact e.harness (e.blobDoc H) commit spec summary file with
      | .error refused => return .error refused
      | .ok id =>
        emit (.docChanged (e.blobDoc H))
        match (← get).mine.task.artifacts.find? fun a => a.id = id with
        | some art => return .ok art
        | none => return .error s!"`{id}` was registered and is not in the ledger" :
      Program H (Except String Artifact)) := by
  refine (registerArtifact_does _ _ _ _ _ _).bind fun r => ?_
  split
  · exact Within.pure _
  · refine (emit_does rfl (by simp)).bind fun _ => Within.bind Within.get fun c => ?_
    split <;> exact Within.pure _

theorem produceArtifact_exported {art : Artifact}
    (h : ((produceArtifact e).run c).1 = .ok art) :
    ∃ own, ((docFor e.harness).run c).1 = some own ∧
      c.Exported ((produceArtifact e).run c).2 e own := by
  unfold produceArtifact at h ⊢
  rw [run_bind, run_get] at h ⊢
  dsimp only at h ⊢
  split at h
  · cases h
  · rw [run_bind] at h ⊢
    split at h
    · cases h
    · next own hown =>
      refine ⟨own, hown, ⟨((docFor e.harness).run c).2, docFor_opened hown, ?_⟩⟩
      have hmine := (docFor_opened hown).mine
      generalize ((docFor e.harness).run c).2 = s at h hmine ⊢
      rw [run_bind, run_get] at h ⊢
      dsimp only at h ⊢
      split at h
      · cases h
      · next source extension hsource =>
        rw [run_bind]
        obtain ⟨haccess, hothers⟩ := keepExport_leaves e own source
          (H.fileName e.name (source.take 7).toString extension) s
        generalize (keepExport e own source
          (H.fileName e.name (source.take 7).toString extension)).run s = kept at haccess hothers ⊢
        -- the artifact and the telling leave the rest
        have hrest := told_does (H := H) e (some kept.1.id) (e.spec (e.filled own (s.dag.head own)))
          s!"exported {H.fileName e.name (source.take 7).toString extension}, {e.bytes.length} bytes of {e.kind}"
          (some ⟨H.fileName e.name (source.take 7).toString extension, e.mime, e.bytes.length⟩)
        obtain ⟨hdocuments, hrecords, hdag⟩ := kept_of_ledger (hrest kept.2)
        refine ⟨⟨H.fileName e.name (source.take 7).toString extension, hdocuments.trans ?_⟩,
          fun d hd => ⟨?_, ?_⟩⟩
        · rw [haccess, hmine]
        · exact (congrArg (AList.lookup d) hrecords).trans (hothers d hd).1
        · exact (congrArg (Dag.head · d) hdag).trans (hothers d hd).2

/-! ### What an export keeps out of -/

/-- What is registered elsewhere keeps its workspace, its access list, its record and its head,
and what is tightened here stays so. -/
structure Core.KeepsOut (c t : Core H) : Prop where
  elsewhere : ∀ d m, c.access.document d = some m → m.workspace ≠ c.mine.workspace →
    (∃ m', t.access.document d = some m' ∧ m'.workspace = m.workspace ∧ m'.acl = m.acl) ∧
      t.store.getDocument d = c.store.getDocument d ∧ t.dag.head d = c.dag.head d
  here : ∀ d m a, c.access.document d = some m → m.workspace = c.mine.workspace →
    m.acl = some a → ∃ m', t.access.document d = some m' ∧ m'.acl = some a

/-- A document's name is free for the workspace's own: nobody's elsewhere, and not tightened. -/
def Core.Clear (c : Core H) (d : DocId) : Prop :=
  ∀ m, c.access.document d = some m → m.workspace = c.mine.workspace ∧ m.acl = none

/-- A document registered here as one nobody tightened, where it was elsewhere or tightened. -/
private theorem clear_of_taken {t : Core H} (h : c.KeepsOut t) (title : String)
    (htaken : t.access.document d = some ⟨d, c.mine.workspace, none, title⟩) : c.Clear d := by
  intro m hm
  have hworkspace : m.workspace = c.mine.workspace := by
    by_contra hne
    obtain ⟨⟨m', hm', hsame, -⟩, -⟩ := h.elsewhere d m hm hne
    obtain rfl := Option.some.inj (htaken.symm.trans hm')
    exact hne hsame.symm
  refine ⟨hworkspace, ?_⟩
  by_contra hacl
  obtain ⟨a, ha⟩ := Option.ne_none_iff_exists'.1 hacl
  obtain ⟨m', hm', hkept⟩ := h.here d m a hm hworkspace ha
  obtain rfl := Option.some.inj (htaken.symm.trans hm')
  cases hkept

/-- Where the new ids of documents are new, an export keeps out of what is elsewhere or tightened
exactly where the name made of its content is free, and so is that of the harness's own document
if it has to be brought in. -/
theorem Core.keepsOut_iff {art : Artifact} (hexport : ((produceArtifact e).run c).1 = .ok art)
    (hfresh : c.access.document s!"doc_{H.uuid c.reads}" = none) :
    c.KeepsOut ((produceArtifact e).run c).2 ↔
      c.Clear (e.blobDoc H) ∧ ∀ own, c.existingDocumentOf e.harness = some own →
        c.docs.exists? own = true ∨ c.Clear own := by
  obtain ⟨own, -, ⟨s, hopened, ⟨name, hdocuments⟩, hothers⟩⟩ := produceArtifact_exported hexport
  generalize ((produceArtifact e).run c).2 = t at hdocuments hothers ⊢
  have hblob : t.access.document (e.blobDoc H) =
      some ⟨e.blobDoc H, c.mine.workspace, none, name⟩ := by
    unfold AccessControl.document
    rw [hdocuments]
    exact AccessControl.document_addDocument_self _ _ _ _ _
  have hrest : ∀ d, d ≠ e.blobDoc H → t.access.document d = s.access.document d := by
    intro d hd
    unfold AccessControl.document
    rw [hdocuments]
    exact AccessControl.document_addDocument_ne _ _ _ _ hd
  constructor
  · intro hkeeps
    refine ⟨clear_of_taken hkeeps name hblob, fun d hd => ?_⟩
    have hown : own = d := by rw [hopened.named, hd]; rfl
    subst hown
    by_cases hloaded : c.docs.exists? own = true
    · exact .inl hloaded
    · right
      by_cases hname : own = e.blobDoc H
      · rw [hname]
        exact clear_of_taken hkeeps name hblob
      · obtain ⟨title, haccess⟩ := hopened.unloaded (by simpa using hloaded)
        refine clear_of_taken hkeeps title ?_
        rw [hrest own hname, haccess]
        exact AccessControl.document_addDocument_self _ _ _ _ _
  · rintro ⟨hclear, hclearOwn⟩
    -- whatever is not clear keeps its registration, its record and its head
    have hsame : ∀ d, ¬c.Clear d → t.access.document d = c.access.document d ∧
        t.store.getDocument d = c.store.getDocument d ∧ t.dag.head d = c.dag.head d := by
      intro d hd
      have hne : d ≠ e.blobDoc H := by
        rintro rfl
        exact hd hclear
      obtain ⟨hstore, hhead⟩ := hothers d hne
      rw [hrest d hne, hstore, hhead, hopened.dag]
      by_cases hown : d = own
      · subst hown
        cases hexisting : c.existingDocumentOf e.harness with
        | none =>
          -- a new document's id names nothing yet
          have hnew : d = s!"doc_{H.uuid c.reads}" := by rw [hopened.named, hexisting]; rfl
          refine absurd ?_ hd
          intro m hm
          rw [hnew, hfresh] at hm
          cases hm
        | some own =>
          have hsome : d = own := by rw [hopened.named, hexisting]; rfl
          subst hsome
          have hloaded := (hclearOwn d hexisting).resolve_right hd
          rw [hopened.loaded hloaded, hopened.existing (by rw [hexisting]; exact nofun)]
          exact ⟨rfl, rfl, rfl⟩
      · rw [hopened.records d hown]
        refine ⟨?_, rfl, rfl⟩
        by_cases hloaded : c.docs.exists? own = true
        · rw [hopened.loaded hloaded]
        · obtain ⟨title, haccess⟩ := hopened.unloaded (by simpa using hloaded)
          rw [haccess]
          exact AccessControl.document_addDocument_ne _ _ _ _ hown
    refine ⟨fun d m hm hne => ?_, fun d m a hm _ ha => ?_⟩
    · obtain ⟨haccess, hstore, hhead⟩ := hsame d fun h => hne (h m hm).1
      exact ⟨⟨m, haccess.trans hm, rfl, rfl⟩, hstore, hhead⟩
    · obtain ⟨haccess, -⟩ := hsame d fun h => by
        have := (h m hm).2
        rw [ha] at this
        cases this
      exact ⟨m, haccess.trans hm, ha⟩

/-- A note of one byte. -/
@[grind =]
def note : Export :=
  ⟨"notes", "page", "note", "note", "text/plain", [1], .obj [], "a note"⟩

/-- Ana and Ben, who have exported nothing. -/
def unexported : Core Sample.host :=
  (Core.system Sample.host).run (.start (Sample.server 1) [Sample.staged Sample.notes]) Sample.signUp

theorem Core.keepsOut_iff_first :
    (∃ art, ((produceArtifact note).run (unexported.entered Sample.ana)).1 = .ok art) ∧
      (unexported.entered Sample.ana).KeepsOut
        ((produceArtifact note).run (unexported.entered Sample.ana)).2 := by
  have hexport : ((produceArtifact note).run (unexported.entered Sample.ana)).1.toBool = true := by
    decide +kernel
  have hclear : ((unexported.entered Sample.ana).access.document
      (note.blobDoc Sample.host)).isNone = true := by decide +kernel
  have hnone : ((unexported.entered Sample.ana).existingDocumentOf "notes").isNone = true := by
    decide +kernel
  cases hart : ((produceArtifact note).run (unexported.entered Sample.ana)).1 with
  | error e =>
    rw [hart] at hexport
    cases hexport
  | ok art =>
    refine ⟨⟨art, rfl⟩, (Core.keepsOut_iff hart (Option.isNone_iff_eq_none.1 (by decide +kernel))).2
      ⟨fun m hm => ?_, fun own hown => ?_⟩⟩
    · rw [Option.isNone_iff_eq_none.1 hclear] at hm
      cases hm
    · rw [show (unexported.entered Sample.ana).existingDocumentOf note.harness = none from
        Option.isNone_iff_eq_none.1 hnone] at hown
      cases hown

/-- Ana has exported the note. -/
def exportedOnce : Core Sample.host :=
  (Core.system Sample.host).run (.start (Sample.server 1) [Sample.staged Sample.notes])
    (Sample.signUp ++ [.request Sample.ana (.produceArtifact note)])

/-- Ben, who exports the same note in his own workspace, moves hers there. -/
theorem Core.export_crosses : ¬∀ c : Core Sample.host, c.Reach (fun _ _ => True) →
    ∀ caller, c.SignedIn caller → ∀ e art,
      ((produceArtifact e).run (c.entered caller)).1 = .ok art →
        (c.entered caller).KeepsOut ((produceArtifact e).run (c.entered caller)).2 := by
  intro h
  have hreach : Core.Reach (fun _ _ => True) exportedOnce :=
    ⟨_, _, System.runs_of_list (by decide +kernel)⟩
  have hexport : ((produceArtifact note).run (exportedOnce.entered Sample.ben)).1.toBool = true := by
    decide +kernel
  have hmoved : ((exportedOnce.entered Sample.ben).access.document
      (note.blobDoc Sample.host)).any (fun m =>
        m.workspace ≠ (exportedOnce.entered Sample.ben).mine.workspace &&
          (((produceArtifact note).run (exportedOnce.entered Sample.ben)).2.access.document
            (note.blobDoc Sample.host)).any fun m' => m'.workspace ≠ m.workspace) = true := by
    decide +kernel
  obtain ⟨m, hm, hmoved⟩ := (Option.any_eq_true _ _).1 hmoved
  obtain ⟨helsewhere, hmoved⟩ := Bool.and_eq_true_iff.1 hmoved
  obtain ⟨m', hm', hmoved⟩ := (Option.any_eq_true _ _).1 hmoved
  cases hart : ((produceArtifact note).run (exportedOnce.entered Sample.ben)).1 with
  | error e =>
    rw [hart] at hexport
    cases hexport
  | ok art =>
    have hkeeps := h exportedOnce hreach Sample.ben (by decide +kernel) note art hart
    obtain ⟨⟨kept, hkept, hsame, -⟩, -⟩ := hkeeps.elsewhere _ m hm (by simpa using helsewhere)
    obtain rfl := Option.some.inj (hm'.symm.trans hkept)
    exact absurd hsame (by simpa using hmoved)

end LocalSpace
