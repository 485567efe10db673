import LocalSpace.Landing
import LocalSpace.Undoing

/-!
# Changes that fail half way

The requests that change a document and its history together, with what of the database fails
inside one named (`Faults`): the same programs where nothing does (`callTool_under`,
`undo_under`, `redo_under`, `dropRun_under`). A failed one leaves every document's content and
head as they were exactly where the failure did not come after the first of the two was changed
(`lands_or_not_iff`): a call's document is written before its commit, an undo's and a redo's head
moved before its content is put back, and a run's heads are moved one after another.
-/

namespace LocalSpace

open Library

variable {H : Host} {c : Core H}

/-- What of the database fails inside a request. -/
structure Faults where
  /-- A commit is not written. -/
  commit : Bool
  /-- An undo's commits are not read, or its head not moved. -/
  undo : Bool
  /-- A redo's head is not moved. -/
  redo : Bool
  /-- What a redo put back is not read, its head moved. -/
  reread : Bool
  /-- A dropped run's head on a document is not moved. -/
  drop : DocId → Bool

/-- Nothing fails. -/
@[grind =]
def Faults.none : Faults :=
  ⟨false, false, false, false, fun _ => false⟩

/-- What a failing database is reported as. -/
def storageError : String :=
  "the database failed"

section Under

variable (f : Faults)

/-- `applyOutput`, whose commit may fail. -/
def applyOutputUnder (doc : DocId) (owner tool : String) (params : Json) (author : Author)
    (out : HarnessOutput) : Program H (Except String (String × Option CommitId)) := do
  match out.doc with
  | none => return .ok (out.diffSummary.getD "no change", none)
  | some next =>
    match ← applyJson doc next with
    | .error e =>
      return .error s!"the harness returned a document Core could not apply: {e}"
    | .ok changes =>
      if changes.isEmpty then
        return .ok (out.diffSummary.getD "no change", none)
      else
        let diffSummary := out.diffSummary.getD changes.summary
        if f.commit then
          return .error s!"the change could not be committed: {storageError}"
        else
          let id ← commitTool doc owner tool params diffSummary author
          docChanged doc
          return .ok (diffSummary, some id)

/-- `execute`, whose commit may fail. -/
def executeUnder (tool : String) (owner : HarnessId) (doc : DocId) (params : Json)
    (author : Author) (decl : ToolDecl) : Program H ToolOutcome := do
  match ← consult tool owner doc params with
  | .error o => return o
  | .ok out =>
    match ← applyOutputUnder f doc owner tool params author out with
    | .error e => return .error e
    | .ok (diffSummary, commit) => settleCall doc owner tool decl out diffSummary commit

/-- `undo`, whose transaction may fail. -/
def undoUnder : Program H Response := do
  let c ← get
  match c.undoableDoc with
  | none => return .error "nothing to undo"
  | some doc =>
    if f.undo then return .error storageError
    else
      match c.dag.undo doc with
      | .error e => return .error e
      | .ok (revert, dag) =>
        modify fun c => { c with dag := dag }
        return revertResponse (← applyRevert revert)

/-- `redo`, whose transaction may fail, and what it reads after it. -/
def redoUnder : Program H Response := do
  let c ← get
  match c.undoableDoc with
  | none => return .error "nothing to redo"
  | some doc =>
    if f.redo then return .error storageError
    else
      let r := c.dag.redo doc
      modify fun c => { c with dag := r.2 }
      match r.1 with
      | .error e => return .error e
      | .ok revert =>
        if f.reread then return .error storageError
        else return revertResponse (← applyRevert revert)

namespace Dag

/-- The documents of a dropped run one after another, as far as the database goes along. -/
def dropDocsUnder (all : List Commit) (run : String) :
    List DocId → List Revert × Dag → Except String (List Revert) × Dag
  | [], (reverts, dag) => (.ok reverts, dag)
  | doc :: rest, (reverts, dag) =>
    if f.drop doc then (.error storageError, dag)
    else
      let r := dropDoc all run dag doc
      dropDocsUnder all run rest (reverts ++ [r.1], r.2)

/-- `dropRun`, any of whose transactions may fail: the ones before it are done. -/
def dropRunUnder (dag : Dag) (run : String) : Except String (List Revert) × Dag :=
  let all := dag.all
  let inRun := all.filter fun c => c.run = some run
  if inRun.isEmpty then (.error s!"no commits belong to run `{run}`", dag)
  else dropDocsUnder f all run (sortDedup (inRun.map Commit.doc)) ([], dag)

end Dag

/-- `dropRun`, any of whose transactions may fail. -/
def dropRunUnder (run : String) : Program H Response := do
  let c ← get
  if c.active.isViewer then return .error readOnlyReason
  else
    match c.firstDenied .edit (c.touchedBy run) with
    | some denied => return .error denied.text
    | none =>
      let r := c.dag.dropRunUnder f run
      modify fun c => { c with dag := r.2 }
      match r.1 with
      | .error e => return .error e
      | .ok reverts =>
        reverts.forM fun r => do
          let _ ← applyRevert r
        modify fun c => c.own fun u => { u with
          proposals := u.proposals.filter fun p => p.run ≠ run }
        return .ok

end Under

/-! ### Where nothing fails -/

theorem executeUnder_none : executeUnder (H := H) .none = execute := by
  funext tool owner doc params author decl
  rw [execute_eq]
  rfl

theorem callTool_under : callToolWith (H := H) (executeUnder .none) = callTool := by
  rw [executeUnder_none, callTool]

theorem undo_under : undoUnder (H := H) .none = undo :=
  rfl

theorem redo_under : redoUnder (H := H) .none = redo :=
  rfl

theorem Dag.dropDocsUnder_none (all : List Commit) (run : String) (docs : List DocId)
    (acc : List Revert × Dag) :
    dropDocsUnder .none all run docs acc =
      let r := docs.foldl (fun (acc : List Revert × Dag) doc =>
        let r := dropDoc all run acc.2 doc
        (acc.1 ++ [r.1], r.2)) acc
      (.ok r.1, r.2) := by
  induction docs generalizing acc with
  | nil => rfl
  | cons doc docs ih => exact ih _

theorem dropRun_under (run : String) : dropRunUnder (H := H) .none run = dropRun run := by
  funext c
  change (dropRunUnder .none run).run c = (dropRun run).run c
  unfold dropRunUnder dropRun
  rw [run_bind, run_get, run_bind, run_get]
  dsimp only
  by_cases hviewer : c.active.isViewer = true
  · rw [if_pos hviewer, if_pos hviewer]
  · rw [if_neg hviewer, if_neg hviewer]
    cases c.firstDenied .edit (c.touchedBy run) with
    | some denied => rfl
    | none =>
      unfold Dag.dropRunUnder Dag.dropRun
      dsimp only
      by_cases hempty : (c.dag.all.filter fun c => c.run = some run).isEmpty = true
      · rw [if_pos hempty, if_pos hempty]
        rfl
      · rw [if_neg hempty, if_neg hempty, Dag.dropDocsUnder_none]

/-! ### A call -/

/-- A change is in the document and cannot be in its history: it was reconciled in part only, or
is not committed. -/
def Core.Breaks (c : Core H) (f : Faults) (doc : DocId) (next : Json) : Prop :=
  (c.docs.applyJson doc next).2.json doc ≠ c.docs.json doc ∧
    ((∃ e, (c.docs.applyJson doc next).1 = .error e) ∨ c.Counts doc next ∧ f.commit = true)

/-- What was handed back is applied, or the failure leaves the history as it was. -/
theorem applyOutputUnder_spec {f : Faults} {doc : DocId} {out : HarnessOutput} {next : Json}
    (owner tool : String) (params : Json) (author : Author) (hout : out.doc = some next) :
    ((∃ r, ((applyOutputUnder f doc owner tool params author out).run c).1 = .ok r) ∧
      ¬c.Breaks f doc next) ∨
    (∃ e, ((applyOutputUnder f doc owner tool params author out).run c).1 = .error e) ∧
      ((applyOutputUnder f doc owner tool params author out).run c).2.dag = c.dag ∧
      ((applyOutputUnder f doc owner tool params author out).run c).2.docs =
        (c.docs.applyJson doc next).2 ∧
      (c.Breaks f doc next ↔ (c.docs.applyJson doc next).2.json doc ≠ c.docs.json doc) := by
  unfold applyOutputUnder applyJson Core.Breaks Core.Counts
  rw [hout]
  simp only [run_bind, run_get, run_modify, run_pure]
  cases (c.docs.applyJson doc next).1 with
  | error e => exact .inr ⟨⟨_, rfl⟩, rfl, rfl, by simp⟩
  | ok changes =>
    dsimp only
    split
    · next hempty => exact .inl ⟨⟨_, rfl⟩, by simp [hempty]⟩
    · next hempty =>
      split
      · next hcommit => exact .inr ⟨⟨_, rfl⟩, rfl, rfl, by simp [hcommit, hempty]⟩
      · next hcommit => exact .inl ⟨⟨_, rfl⟩, by simp [hcommit]⟩

/-- A call that was applied does not fail. -/
theorem settleCall_ok (doc : DocId) (owner tool : String) (decl : ToolDecl) (out : HarnessOutput)
    (diffSummary : String) (commit : Option CommitId) (c : Core H) :
    ((settleCall doc owner tool decl out diffSummary commit).run c).1.failed = false := by
  unfold settleCall
  rw [run_bind, run_bind]
  split
  · rfl
  · rw [run_bind]
    split <;> rfl

theorem executeUnder_spec (f : Faults) (tool : String) (owner : HarnessId) (doc : DocId)
    (params : Json) (author : Author) (decl : ToolDecl) :
    (((executeUnder f tool owner doc params author decl).run c).1.failed = true →
      ∀ d, c.Still ((executeUnder f tool owner doc params author decl).run c).2 d) ↔
    ¬∃ out, ((consult tool owner doc params).run c).1 = .ok out ∧
      ∃ next, out.doc = some next ∧ c.Breaks f doc next := by
  have hconsult := consult_untouched tool owner doc params c
  unfold executeUnder
  rw [run_bind]
  split
  · next o hr =>
    refine iff_of_true (fun _ d => hconsult.still d) ?_
    rintro ⟨out, hout, -⟩
    rw [hr] at hout
    cases hout
  · next out hr =>
    let t := ((consult tool owner doc params).run c).2
    have hbroken : (∃ out, ((consult tool owner doc params).run c).1 = .ok out ∧
        ∃ next, out.doc = some next ∧ c.Breaks f doc next) ↔
          ∃ next, out.doc = some next ∧ t.Breaks f doc next := by
      unfold Core.Breaks Core.Counts
      rw [hconsult.1, hr]
      simp
    rw [hbroken, run_bind]
    cases hout : out.doc with
    | none =>
      refine iff_of_true (fun hfailed => ?_) (by simp)
      unfold applyOutputUnder at hfailed
      rw [hout] at hfailed
      have hok := settleCall_ok doc owner tool decl out (out.diffSummary.getD "no change") none t
      exact absurd (hok.symm.trans hfailed) (by simp)
    | some next =>
      rcases applyOutputUnder_spec (f := f) (c := t) owner tool params author hout with
        ⟨⟨r, hr'⟩, hbreaks⟩ | ⟨⟨e, hr'⟩, hdag, hdocs, hbreaks⟩
      · rw [hr']
        refine iff_of_true (fun hfailed => ?_) (by simpa using hbreaks)
        have hok := settleCall_ok doc owner tool decl out r.1 r.2
          ((applyOutputUnder f doc owner tool params author out).run t).2
        exact absurd (hok.symm.trans hfailed) (by simp)
      · rw [hr']
        simp only [Option.some.injEq, exists_eq_left']
        rw [hbreaks, not_not]
        constructor
        · intro h
          have := (h rfl doc).2
          rw [← hconsult.1] at this
          exact hdocs ▸ this
        · intro h _ d
          refine ⟨by rw [← hconsult.2]; exact congrArg (Dag.head · d) hdag, ?_⟩
          rw [← hconsult.1]
          refine (congrArg (DocStore.json · d) hdocs).trans ?_
          by_cases hd : d = doc
          · subst hd
            exact h
          · exact DocStore.json_applyJson_ne _ _ hd

/-! ### An undo and a redo -/

/-- The request failed. -/
def Response.failed : Response → Bool
  | .error _ => true
  | _ => false

namespace DocStore

theorem json_restore_ne (s : DocStore H) {doc d : DocId} (bytes : Option Bytes) (h : d ≠ doc) :
    (s.restore doc bytes).2.json d = s.json d := by
  have hinsert : ∀ x : Doc H, ∀ kinds, (⟨s.docs.insert doc x, kinds⟩ : DocStore H).json d =
      s.json d := by
    intro x kinds
    unfold json
    rw [AList.lookup_insert_ne h]
  unfold restore
  split
  · split
    · split
      · rfl
      · exact hinsert _ _
    · split
      · rfl
      · exact s.json_applyJson_ne _ h
  · exact hinsert _ _

end DocStore

namespace Dag

variable {dag dag' : Dag} {doc d : DocId} {r : Revert}

theorem head_undo_ne (h : dag.undo doc = .ok (r, dag')) (hd : d ≠ doc) :
    dag'.head d = dag.head d := by
  unfold Dag.undo at h
  split at h
  · cases h
  · split at h
    · cases h
    · dsimp only at h
      split at h
      · cases h
        exact head_setHead_ne dag _ hd
      · split at h
        · cases h
        · cases h
          exact head_setHead_ne dag _ hd

theorem head_redo_ne (dag : Dag) (hd : d ≠ doc) : (dag.redo doc).2.head d = dag.head d := by
  unfold Dag.redo
  split
  · rfl
  · next id rest _ =>
    dsimp only
    split <;> exact head_setHead_ne dag (some id) hd

theorem redo_doc (h : (dag.redo doc).1 = .ok r) : r.doc = doc := by
  unfold Dag.redo at h
  split at h
  · cases h
  · dsimp only at h
    split at h
    · cases h
    · cases h
      rfl

end Dag

/-- The head of a document was moved and its content not put back, or put back in part. -/
def Core.Parts (c : Core H) (dag : Dag) (docs : DocStore H) (doc : DocId) : Prop :=
  dag.head doc ≠ c.dag.head doc ∨ docs.json doc ≠ c.docs.json doc

/-- A state that differs on one document alone. -/
private theorem still_iff_parts {t : Core H} (doc : DocId)
    (hdag : ∀ d, d ≠ doc → t.dag.head d = c.dag.head d)
    (hdocs : ∀ d, d ≠ doc → t.docs.json d = c.docs.json d) :
    (∀ d, c.Still t d) ↔ ¬c.Parts t.dag t.docs doc := by
  unfold Core.Parts
  rw [not_or, not_not, not_not]
  constructor
  · intro h
    exact h doc
  · intro h d
    by_cases hd : d = doc
    · subst hd
      exact h
    · exact ⟨hdag d hd, hdocs d hd⟩

/-- What a revert fails with is what the document could not be put back for. -/
theorem applyRevert_failed (r : Revert) (c : Core H) :
    (revertResponse ((applyRevert r).run c).1).failed =
        !(c.docs.restore r.doc r.bytes).1.toBool ∧
      ((c.docs.restore r.doc r.bytes).1.toBool = false →
        ((applyRevert r).run c).2 = { c with docs := (c.docs.restore r.doc r.bytes).2 }) := by
  unfold applyRevert
  rw [run_bind, run_get]
  dsimp only
  rw [run_bind, run_modify]
  dsimp only
  cases (c.docs.restore r.doc r.bytes).1 with
  | error e => exact ⟨rfl, fun _ => rfl⟩
  | ok u => exact ⟨rfl, nofun⟩

/-- A revert from a state whose head of its document was moved. -/
private theorem revert_spec {dag : Dag} {doc : DocId} {r : Revert} (hdoc : r.doc = doc)
    (hdag : ∀ d, d ≠ doc → dag.head d = c.dag.head d) :
    ((revertResponse ((applyRevert r).run { c with dag := dag }).1).failed = true →
      ∀ d, c.Still ((applyRevert r).run { c with dag := dag }).2 d) ↔
    ¬((c.docs.restore doc r.bytes).1.toBool = false ∧
      c.Parts dag (c.docs.restore doc r.bytes).2 doc) := by
  subst hdoc
  obtain ⟨hfailed, hstate⟩ := applyRevert_failed r { c with dag := dag }
  rw [hfailed]
  cases hrestore : (c.docs.restore r.doc r.bytes).1.toBool with
  | true => simp
  | false =>
    simp only [Bool.not_false, forall_const, true_and]
    rw [hstate hrestore]
    exact still_iff_parts _ hdag fun d hd => c.docs.json_restore_ne r.bytes hd

/-- An undo moves the head and then cannot put the content back. -/
def Core.TornUndo (c : Core H) (f : Faults) : Prop :=
  ∃ doc, c.undoableDoc = some doc ∧ f.undo = false ∧
    ∃ r dag, c.dag.undo doc = .ok (r, dag) ∧ (c.docs.restore doc r.bytes).1.toBool = false ∧
      c.Parts dag (c.docs.restore doc r.bytes).2 doc

theorem undoUnder_spec (f : Faults) (c : Core H) :
    (((undoUnder f).run c).1.failed = true → ∀ d, c.Still ((undoUnder f).run c).2 d) ↔
      ¬c.TornUndo f := by
  unfold Core.TornUndo undoUnder
  rw [run_bind, run_get]
  dsimp only
  cases c.undoableDoc with
  | none => exact iff_of_true (fun _ _ => ⟨rfl, rfl⟩) (by simp)
  | some doc =>
    dsimp only
    by_cases hfault : f.undo = true
    · rw [if_pos hfault]
      exact iff_of_true (fun _ _ => ⟨rfl, rfl⟩) (by simp [hfault])
    · rw [if_neg hfault]
      rw [Bool.not_eq_true] at hfault
      cases hundo : c.dag.undo doc with
      | error e =>
        refine iff_of_true (fun _ _ => ⟨rfl, rfl⟩) ?_
        rintro ⟨doc', hdoc', -, r, dag, h, -⟩
        cases hdoc'
        rw [hundo] at h
        cases h
      | ok x =>
        obtain ⟨r, dag⟩ := x
        refine (revert_spec (Dag.undo_ok hundo).1 fun d hd => Dag.head_undo_ne hundo hd).trans
          (not_congr ?_)
        constructor
        · rintro ⟨hrestore, hparts⟩
          exact ⟨doc, rfl, hfault, r, dag, hundo, hrestore, hparts⟩
        · rintro ⟨doc', hdoc', -, r', dag', h, hrestore, hparts⟩
          cases hdoc'
          rw [hundo] at h
          cases h
          exact ⟨hrestore, hparts⟩

/-- A redo moves the head and then cannot read what it put back, or put the content back. -/
def Core.TornRedo (c : Core H) (f : Faults) : Prop :=
  ∃ doc, c.undoableDoc = some doc ∧ f.redo = false ∧
    (((f.reread = true ∨ (c.dag.redo doc).1.toBool = false) ∧
        (c.dag.redo doc).2.head doc ≠ c.dag.head doc) ∨
      f.reread = false ∧ ∃ r, (c.dag.redo doc).1 = .ok r ∧
        (c.docs.restore doc r.bytes).1.toBool = false ∧
          c.Parts (c.dag.redo doc).2 (c.docs.restore doc r.bytes).2 doc)

theorem redoUnder_spec (f : Faults) (c : Core H) :
    (((redoUnder f).run c).1.failed = true → ∀ d, c.Still ((redoUnder f).run c).2 d) ↔
      ¬c.TornRedo f := by
  unfold Core.TornRedo redoUnder
  rw [run_bind, run_get]
  dsimp only
  cases c.undoableDoc with
  | none => exact iff_of_true (fun _ _ => ⟨rfl, rfl⟩) (by simp)
  | some doc =>
    dsimp only
    have hmoved : (∀ d, c.Still { c with dag := (c.dag.redo doc).2 } d) ↔
        (c.dag.redo doc).2.head doc = c.dag.head doc := by
      rw [still_iff_parts (t := { c with dag := (c.dag.redo doc).2 }) doc
        (fun d hd => c.dag.head_redo_ne hd) fun _ _ => rfl]
      simp [Core.Parts]
    by_cases hfault : f.redo = true
    · rw [if_pos hfault]
      exact iff_of_true (fun _ _ => ⟨rfl, rfl⟩) (by simp [hfault])
    · rw [if_neg hfault, run_bind, run_modify]
      rw [Bool.not_eq_true] at hfault
      dsimp only
      cases hredo : (c.dag.redo doc).1 with
      | error e =>
        dsimp only
        refine (forall_prop_of_true rfl).trans (hmoved.trans ?_)
        simp [hfault, hredo, Except.toBool]
      | ok r =>
        dsimp only
        by_cases hreread : f.reread = true
        · rw [if_pos hreread]
          refine (forall_prop_of_true rfl).trans (hmoved.trans ?_)
          simp [hfault, hreread]
        · rw [if_neg hreread]
          rw [Bool.not_eq_true] at hreread
          refine (revert_spec (Dag.redo_doc hredo) fun d hd => c.dag.head_redo_ne hd).trans
            (not_congr ?_)
          simp [hfault, hreread, hredo, Except.toBool]

/-! ### A dropped run -/

namespace Dag

/-- The documents of a dropped run up to the one the database fails on are dropped. -/
theorem dropDocsUnder_fails (f : Faults) (all : List Commit) (run : String) {docs : List DocId}
    (acc : List Revert × Dag) (h : docs.any f.drop = true) :
    dropDocsUnder f all run docs acc = (.error storageError,
      ((docs.takeWhile fun d => !f.drop d).foldl (fun (acc : List Revert × Dag) doc =>
        let r := dropDoc all run acc.2 doc
        (acc.1 ++ [r.1], r.2)) acc).2) := by
  induction docs generalizing acc with
  | nil => simp at h
  | cons doc docs ih =>
    unfold dropDocsUnder
    by_cases hdoc : f.drop doc = true
    · rw [if_pos hdoc, List.takeWhile_cons_of_neg (by simp [hdoc])]
      rfl
    · rw [if_neg hdoc, List.takeWhile_cons_of_pos (by simpa using hdoc)]
      rw [List.any_cons, Bool.or_eq_true] at h
      exact ih _ (h.resolve_left hdoc)

theorem dropDocsUnder_ok (f : Faults) (all : List Commit) (run : String) {docs : List DocId}
    (acc : List Revert × Dag) (h : docs.any f.drop = false) :
    ∃ reverts, (dropDocsUnder f all run docs acc).1 = .ok reverts := by
  induction docs generalizing acc with
  | nil => exact ⟨_, rfl⟩
  | cons doc docs ih =>
    rw [List.any_cons, Bool.or_eq_false_iff] at h
    unfold dropDocsUnder
    rw [if_neg (by simp [h.1])]
    exact ih _ h.2

end Dag

/-- A dropped run's head was moved on some document before the database failed on another. -/
def Core.TornDrop (c : Core H) (f : Faults) (run : String) : Prop :=
  let docs := Dag.sortDedup (c.touchedBy run)
  c.active.isViewer = false ∧ c.firstDenied .edit (c.touchedBy run) = none ∧
    docs.any f.drop = true ∧
      ∃ d ∈ docs.takeWhile fun d => !f.drop d, c.dag.before run d ≠ c.dag.head d

theorem dropRunUnder_spec (f : Faults) (run : String) (c : Core H) :
    (((dropRunUnder f run).run c).1.failed = true →
      ∀ d, c.Still ((dropRunUnder f run).run c).2 d) ↔ ¬c.TornDrop f run := by
  unfold Core.TornDrop dropRunUnder
  rw [run_bind, run_get]
  dsimp only
  by_cases hviewer : c.active.isViewer = true
  · rw [if_pos hviewer]
    exact iff_of_true (fun _ _ => ⟨rfl, rfl⟩) (by simp [hviewer])
  · rw [if_neg hviewer]
    rw [Bool.not_eq_true] at hviewer
    cases hdenied : c.firstDenied .edit (c.touchedBy run) with
    | some denied => exact iff_of_true (fun _ _ => ⟨rfl, rfl⟩) (by simp)
    | none =>
      dsimp only
      rw [run_bind, run_modify]
      dsimp only
      have hdocs : Dag.sortDedup ((c.dag.all.filter fun commit => commit.run = some run).map
          Commit.doc) = Dag.sortDedup (c.touchedBy run) := rfl
      by_cases hempty : (c.dag.all.filter fun commit => commit.run = some run).isEmpty = true
      · have hnone : c.dag.dropRunUnder f run =
            (.error s!"no commits belong to run `{run}`", c.dag) := if_pos hempty
        have htouched : c.touchedBy run = [] := by
          unfold Core.touchedBy
          rw [List.isEmpty_iff.1 hempty]
          rfl
        rw [hnone, htouched]
        exact iff_of_true (fun _ _ => ⟨rfl, rfl⟩) (by simp [Dag.sortDedup])
      · have hsome : c.dag.dropRunUnder f run =
            Dag.dropDocsUnder f c.dag.all run (Dag.sortDedup (c.touchedBy run)) ([], c.dag) :=
          if_neg hempty
        rw [hsome]
        cases hany : (Dag.sortDedup (c.touchedBy run)).any f.drop with
        | false =>
          obtain ⟨reverts, hok⟩ := Dag.dropDocsUnder_ok f c.dag.all run ([], c.dag) hany
          rw [hok]
          exact iff_of_true (fun h => absurd h (by simp [Response.failed]))
            (by simp)
        | true =>
          rw [Dag.dropDocsUnder_fails f c.dag.all run ([], c.dag) hany]
          obtain ⟨-, -, -, hin, hout⟩ := Dag.dropDocs c.dag.all run
            ((Dag.sortDedup (c.touchedBy run)).takeWhile fun d => !f.drop d) ([], c.dag)
          refine (forall_prop_of_true rfl).trans ?_
          simp only [hviewer, true_and, not_exists, not_and, not_not]
          constructor
          · intro h d hd
            exact ((hin d hd).1.symm.trans (h d).1)
          · intro h d
            refine ⟨?_, rfl⟩
            by_cases hd : d ∈ (Dag.sortDedup (c.touchedBy run)).takeWhile fun d => !f.drop d
            · exact (hin d hd).1.trans (h d hd)
            · exact (hout d hd).1

/-! ### Every change -/

/-- A request that changes documents and their history. -/
inductive Change where
  | call (tool : String) (params : Json) (author : Author)
  | undo
  | redo
  | dropRun (run : String)

namespace Change

/-- The change made, under faults: whether it failed. -/
def make (f : Faults) : Change → Program H Bool
  | call tool params author => do
    return (← callToolWith (executeUnder f) tool params author).failed
  | undo => do return (← undoUnder f).failed
  | redo => do return (← redoUnder f).failed
  | dropRun run => do return (← dropRunUnder f run).failed

end Change

namespace Core

/-- The state a change is made from: a call's once its document is brought in. -/
def madeFrom (c : Core H) : Change → Core H
  | .call tool _ _ => (c.calledOn tool).2
  | _ => c

/-- A change that fails leaves the head and the content of every document as they were. -/
def LandsOrNot (c : Core H) (f : Faults) (change : Change) : Prop :=
  ((change.make f).run c).1 = true → ∀ d, (c.madeFrom change).Still ((change.make f).run c).2 d

/-- A change fails between its document and its history: a call whose harness hands back a
document that is reconciled in part, or is not committed; an undo or a redo whose content cannot
be put back, its head moved; a run dropped on some of its documents. -/
def Torn (c : Core H) (f : Faults) : Change → Prop
  | .call tool params author =>
    ∃ owner doc decl, c.Reaches tool params author owner doc decl ∧
      ∃ out, ((consult tool owner.id doc params).run (c.calledOn tool).2).1 = .ok out ∧
        ∃ next, out.doc = some next ∧ (c.calledOn tool).2.Breaks f doc next
  | .undo => c.TornUndo f
  | .redo => c.TornRedo f
  | .dropRun run => c.TornDrop f run

/-- **A failed change lands in neither its document nor its history exactly where it did not fail
between the two.** -/
theorem lands_or_not_iff (c : Core H) (f : Faults) (change : Change) :
    c.LandsOrNot f change ↔ ¬c.Torn f change := by
  cases change with
  | undo => exact undoUnder_spec f c
  | redo => exact redoUnder_spec f c
  | dropRun run => exact dropRunUnder_spec f run c
  | call tool params author =>
    unfold LandsOrNot Torn Change.make madeFrom
    rw [run_bind, run_pure]
    dsimp only
    rcases callToolWith_cases (executeUnder f) c tool params author with
      ⟨owner, doc, decl, hreaches, hrun⟩ | ⟨hnone, huntouched⟩
    · rw [hrun]
      refine (executeUnder_spec f tool owner.id doc params author decl).trans (not_congr ?_)
      constructor
      · intro h
        exact ⟨owner, doc, decl, hreaches, h⟩
      · rintro ⟨owner', doc', decl', hreaches', h⟩
        obtain ⟨rfl, rfl, rfl⟩ := hreaches.unique hreaches'
        exact h
    · refine iff_of_true (fun _ d => huntouched.still d) ?_
      rintro ⟨owner, doc, decl, hreaches, -⟩
      exact hnone ⟨owner, doc, decl, hreaches⟩

/-- Somebody's notes are written on their own computer, and the commit fails. -/
theorem call_tears : ¬∀ c : Core Sample.host, c.Reach (fun _ _ => True) →
    ∀ f change, c.LandsOrNot f change := by
  intro h
  let c : Core Sample.host := start Sample.computer [Sample.staged Sample.notes]
  let f : Faults := { Faults.none with commit := true }
  let change : Change := .call "notes.set" (.obj []) .user
  have hlands := h c ⟨_, _, .refl⟩ f change (by decide +kernel)
  let d := (c.calledOn "notes.set").1.getD ""
  exact absurd (congrArg Sample.text (hlands d).2) (by decide +kernel)

end Core

end LocalSpace
