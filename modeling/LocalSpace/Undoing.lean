import Mathlib.Logic.Function.Iterate
import LocalSpace.Recorded
import LocalSpace.Steps

/-!
# What Undo reaches

Undo goes back on one document, the one most recently committed among those the caller may edit
in the workspace they are in, as far as the last commits of all workspaces go (`undoableDoc`).
Undoing commits nothing, so this document stays the same however often Undo is made
(`undo_leaves`): Undo reaches everything that can be undone exactly where there is nothing to
undo but on this one document (`undoReaches_iff`). Where it is undone already, or was pushed out
of the last commits by others', Undo answers that there is nothing to undo
(`undo_misses`).
-/

namespace LocalSpace

open Library

variable {H : Host} {c : Core H} {caller : Caller} {d : DocId}

namespace Dag

/-- The commits from a head back to a first one are all there. -/
inductive Rooted (dag : Dag) : Option CommitId → Prop
  | first : Rooted dag none
  | next {id : CommitId} {commit : Commit} (recorded : dag.getCommit id = some commit)
      (parent : Rooted dag commit.parent) : Rooted dag (some id)

theorem Rooted.congr {dag dag' : Dag} {head : Option CommitId} (h : dag.Rooted head)
    (hc : dag'.commits = dag.commits) : dag'.Rooted head := by
  induction h with
  | first => exact .first
  | next hrecorded _ ih =>
    refine .next ?_ ih
    unfold getCommit at hrecorded ⊢
    rwa [hc]

/-- An undo that succeeds moves the head to its commit's parent. -/
theorem undo_ok {dag dag' : Dag} {doc : DocId} {r : Revert} (h : dag.undo doc = .ok (r, dag')) :
    r.doc = doc ∧ ∃ id commit, dag.head doc = some id ∧ dag.getCommit id = some commit ∧
      dag'.head doc = commit.parent := by
  unfold Dag.undo at h
  split at h
  · cases h
  · next id hid =>
    split at h
    · cases h
    · next commit hcommit =>
      have hmoved : ∀ (stack : Table DocId (List CommitId)),
          ({ dag.setHead doc commit.parent with redos := stack } : Dag).head doc = commit.parent :=
        fun _ => head_setHead_self dag doc commit.parent
      dsimp only at h
      split at h
      · cases h
        exact ⟨rfl, id, commit, hid, hcommit, by simpa [*] using hmoved _⟩
      · split at h
        · cases h
        · cases h
          exact ⟨rfl, id, commit, hid, hcommit, by simpa [*] using hmoved _⟩

/-- Where the commits from a document's head back are all there, an undo succeeds. -/
theorem Rooted.undo {dag : Dag} {doc : DocId} {id : CommitId} (h : dag.Rooted (some id))
    (hhead : dag.head doc = some id) : ∃ r dag', dag.undo doc = .ok (r, dag') := by
  cases h with
  | next hrecorded hparent =>
    unfold Dag.undo
    rw [hhead]
    simp only [hrecorded]
    cases hparent' : (_ : Commit).parent with
    | none => exact ⟨_, _, rfl⟩
    | some p =>
      rw [hparent'] at hparent
      cases hparent with
      | next hp _ =>
        simp only [hp]
        exact ⟨_, _, rfl⟩

end Dag

namespace Core

/-- A document of the workspace the caller is in which they may edit, other than the environment's
lock, and on which there is something to undo. -/
structure Undoable (c : Core H) (d : DocId) : Prop where
  here : ((c.access.document d).any fun m => m.workspace = c.mine.workspace) = true
  edit : c.may d .edit = true
  unlocked : d ≠ lockDoc
  head : (c.dag.head d).isSome = true

/-- Whether an undo of a document can load what it goes back to. -/
def restores (c : Core H) (d : DocId) : Bool :=
  match c.dag.undo d with
  | .ok (r, _) => (c.docs.restore r.doc r.bytes).1.toBool
  | .error _ => false

/-- Undo succeeds where there is something to undo, on a document on which there is, and
repeating it brings every such document to before its first commit. -/
structure UndoReaches (c : Core H) (caller : Caller) : Prop where
  once : (∃ d, (c.entered caller).Undoable d) → ((handleAs caller .undo).run c).1 = .ok ∧
    ∃ d r, (c.entered caller).Undoable d ∧
      c.dag.undo d = .ok (r, (c.step (.request caller .undo)).dag)
  all : ∃ n, ∀ d, (c.entered caller).Undoable d →
    ((fun c => c.step (.request caller .undo))^[n] c).dag.head d = none

/-! ### One Undo -/

/-- Putting a document back changes neither who may do what nor the history. -/
private theorem applyRevert_leaves (r : Revert) (c : Core H) :
    ((applyRevert r).run c).2.access = c.access ∧ ((applyRevert r).run c).2.mine = c.mine ∧
      ((applyRevert r).run c).2.active = c.active ∧ ((applyRevert r).run c).2.dag = c.dag := by
  let R : Core H → Core H → Prop := fun s t =>
    t.access = s.access ∧ t.mine = s.mine ∧ t.active = s.active ∧ t.dag = s.dag
  have hR : IsPreorder (Core H) R :=
    { refl := fun _ => ⟨rfl, rfl, rfl, rfl⟩
      trans := fun _ _ _ hst htu => ⟨htu.1.trans hst.1, htu.2.1.trans hst.2.1,
        htu.2.2.1.trans hst.2.2.1, htu.2.2.2.trans hst.2.2.2⟩ }
  have htold : ∀ {s t : Core H}, Does Act toldActs s t → R s t := by
    intro s t h
    refine h.preserves (I := R s) (fun p hp u v hact hu => ?_) (hR.refl s)
    refine hR.trans _ _ _ hu ?_
    simp only [List.mem_cons, List.not_mem_nil, or_false] at hp
    rcases hp with rfl | rfl
    · obtain ⟨_, _, _, _, _, _, _, rfl⟩ := hact
      exact ⟨rfl, rfl, rfl, rfl⟩
    · obtain ⟨doc, peer, rfl⟩ := hact
      obtain ⟨_, _, hrun⟩ := syncReplica_run doc peer u
      rw [hrun]
      exact ⟨rfl, rfl, rfl, rfl⟩
  refine (?_ : Within R (applyRevert r)) c
  unfold applyRevert
  refine Within.bind Within.get fun c => Within.bind (Within.change fun _ => ⟨rfl, rfl, rfl, rfl⟩)
    fun _ => ?_
  split
  · exact Within.pure _
  · exact Within.bind (Within.change fun _ => ⟨rfl, rfl, rfl, rfl⟩) fun _ =>
      ((docChanged_does _).mono fun _ _ => htold).bind fun _ =>
        ((notice_does _ _ (by simp) : Within (Does Act toldActs) _).mono fun _ _ => htold).bind fun _ =>
          Within.pure _

/-- **An Undo leaves who may do what**, and the history but for the one document's head. -/
theorem undo_leaves (c : Core H) :
    (undo.run c).2.access = c.access ∧ (undo.run c).2.mine = c.mine ∧
      (undo.run c).2.active = c.active ∧
      (undo.run c).2.dag = match c.undoableDoc with
        | some d => c.dag.after H (.undo d)
        | none => c.dag := by
  unfold undo
  rw [run_bind, run_get]
  dsimp only
  cases c.undoableDoc with
  | none => exact ⟨rfl, rfl, rfl, rfl⟩
  | some d =>
    dsimp only [Dag.after]
    cases hundo : c.dag.undo d with
    | error e => exact ⟨rfl, rfl, rfl, rfl⟩
    | ok r =>
      dsimp only
      rw [run_bind, run_modify]
      exact applyRevert_leaves r.1 { c with dag := r.2 }

/-- Undo succeeds where there is a document for it whose content can be put back. -/
theorem undo_ok_iff (c : Core H) :
    (undo.run c).1 = .ok ↔ ∃ d, c.undoableDoc = some d ∧ c.restores d = true := by
  unfold undo restores
  rw [run_bind, run_get]
  dsimp only
  cases c.undoableDoc with
  | none => simp
  | some d =>
    simp only [Option.some.injEq, exists_eq_left']
    cases hundo : c.dag.undo d with
    | error e => simp
    | ok r =>
      dsimp only
      rw [run_bind, run_modify]
      dsimp only
      unfold applyRevert
      rw [run_bind, run_bind, run_get]
      dsimp only
      rw [run_bind, run_modify]
      dsimp only
      cases hrestore : (c.docs.restore r.1.doc r.1.bytes).1 with
      | error e => simp [revertResponse, Except.toBool]
      | ok u => exact iff_of_true rfl rfl

/-- What Undo goes back on is settled by what no Undo changes. -/
theorem undoableDoc_undo (c : Core H) : (undo.run c).2.undoableDoc = c.undoableDoc := by
  obtain ⟨haccess, hmine, hactive, hdag⟩ := undo_leaves c
  have hhistory : (undo.run c).2.dag.history 200 = c.dag.history 200 := by
    rw [hdag]
    split
    · next d _ =>
      obtain ⟨hc, ho⟩ := Dag.after_commits (show c.dag.textOf H (.undo d) = none from rfl)
      unfold Dag.history Dag.getCommit
      rw [hc, ho]
    · rfl
  unfold undoableDoc may identity
  rw [haccess, hmine, hactive, hhistory]

/-! ### Undo after Undo -/

/-- What an Undo leaves. -/
@[grind =]
def undid (c : Core H) : Core H :=
  (undo.run c).2

/-- An Undo leaves the heads of the documents it is not for. -/
theorem head_undid_of_ne (h : c.undoableDoc ≠ some d) :
    c.undid.dag.head d = c.dag.head d := by
  unfold undid
  rw [(undo_leaves c).2.2.2]
  split
  · next d' hd' =>
    refine (Dag.after_others fun heq => h ?_).1
    rw [hd', show d = d' from heq]
  · rfl

theorem undoableDoc_undid : c.undid.undoableDoc = c.undoableDoc :=
  undoableDoc_undo c

theorem head_undids_of_ne (h : c.undoableDoc ≠ some d) (n : Nat) :
    (undid^[n] c).dag.head d = c.dag.head d := by
  induction n generalizing c with
  | zero => rfl
  | succ n ih =>
    rw [Function.iterate_succ_apply, ih (by rwa [undoableDoc_undid]), head_undid_of_ne h]

/-- The commits stay. -/
theorem commits_undid : c.undid.dag.commits = c.dag.commits := by
  unfold undid
  rw [(undo_leaves c).2.2.2]
  split
  · exact (Dag.after_commits rfl).1
  · rfl

/-- The head of the document an Undo is for moves to its parent, where it moves. -/
theorem head_undid_self (h : c.undoableDoc = some d) :
    c.undid.dag.head d = c.dag.head d ∨ ∃ id commit, c.dag.head d = some id ∧
      c.dag.getCommit id = some commit ∧ c.undid.dag.head d = commit.parent := by
  unfold undid
  rw [(undo_leaves c).2.2.2, h]
  dsimp only [Dag.after]
  split
  · next r hundo =>
    obtain ⟨-, id, commit, hid, hcommit, hhead⟩ := Dag.undo_ok (show c.dag.undo d = .ok (r.1, r.2) from hundo)
    exact .inr ⟨id, commit, hid, hcommit, hhead⟩
  · exact .inl rfl

/-- A document that some Undos bring to before its first commit has its commits there. -/
theorem rooted_of_undids (h : c.undoableDoc = some d) {n : Nat}
    (hn : (undid^[n] c).dag.head d = none) : c.dag.Rooted (c.dag.head d) := by
  induction n generalizing c with
  | zero =>
    rw [show c.dag.head d = none from hn]
    exact .first
  | succ n ih =>
    rw [Function.iterate_succ_apply] at hn
    have hrooted := ih (by rwa [undoableDoc_undid]) hn
    rcases head_undid_self h with hsame | ⟨id, commit, hid, hcommit, hhead⟩
    · rw [hsame] at hrooted
      exact hrooted.congr commits_undid.symm
    · rw [hhead] at hrooted
      rw [hid]
      exact .next hcommit (hrooted.congr commits_undid.symm)

/-- As many Undos as a document has commits behind its head bring it to before the first. -/
theorem undids_of_rooted (h : c.undoableDoc = some d) (hrooted : c.dag.Rooted (c.dag.head d)) :
    ∃ n, (undid^[n] c).dag.head d = none := by
  suffices hall : ∀ {head : Option CommitId}, c.dag.Rooted head → ∀ {x : Core H},
      x.undoableDoc = some d → x.dag.commits = c.dag.commits → x.dag.head d = head →
      ∃ n, (undid^[n] x).dag.head d = none from hall hrooted h rfl rfl
  intro head hr
  induction hr with
  | first => exact fun _ _ hhead => ⟨0, hhead⟩
  | next hrecorded hparent ih =>
    rename_i id commit
    intro x hx hcommits hhead
    have hrooted : x.dag.Rooted (some id) :=
      (Dag.Rooted.next hrecorded hparent).congr hcommits
    obtain ⟨r, dag', hundo⟩ := hrooted.undo hhead
    have hmoved : x.undid.dag.head d = commit.parent := by
      obtain ⟨-, id', commit', hid', hcommit', hhead'⟩ := Dag.undo_ok hundo
      obtain rfl := Option.some.inj (hhead.symm.trans hid')
      have hget : x.dag.getCommit id = c.dag.getCommit id := by
        unfold Dag.getCommit
        rw [hcommits]
      rw [hget, hrecorded] at hcommit'
      obtain rfl := Option.some.inj hcommit'
      unfold undid
      rw [(undo_leaves x).2.2.2, hx]
      dsimp only [Dag.after]
      rw [hundo]
      exact hhead'
    obtain ⟨n, hn⟩ := ih (x := x.undid) (by rwa [undoableDoc_undid])
      (commits_undid.trans hcommits) hmoved
    exact ⟨n + 1, by rwa [Function.iterate_succ_apply]⟩

/-! ### The request -/

/-- The caller who is the active one comes in to what there is. -/
theorem entered_self (h : c.active = caller) : c.entered caller = c := by
  unfold entered activate
  rw [run_bind, run_get]
  dsimp only
  rw [if_pos (by rw [h]), run_modify, ← h]

theorem step_undo (hcaller : caller.isSystem = false) :
    c.step (.request caller .undo) = (c.entered caller).undid := by
  rw [step_request hcaller]
  rfl

theorem handleAs_undo (hcaller : caller.isSystem = false) :
    ((handleAs caller .undo).run c).1 = (undo.run (c.entered caller)).1 := by
  unfold handleAs
  rw [if_neg (by simp [hcaller])]
  rfl

theorem steps_undo (hcaller : caller.isSystem = false) (n : Nat) :
    ((fun c => c.step (.request caller .undo))^[n] c).dag = (undid^[n] (c.entered caller)).dag := by
  have hactive : ∀ x : Core H, x.active = caller → x.undid.active = caller := fun x hx =>
    (undo_leaves x).2.2.1.trans hx
  have hall : ∀ (n : Nat) (x : Core H), x.active = caller →
      (fun c => c.step (.request caller .undo))^[n] x = undid^[n] x := by
    intro n
    induction n with
    | zero => exact fun _ _ => rfl
    | succ n ih =>
      intro x hx
      rw [Function.iterate_succ_apply, Function.iterate_succ_apply, step_undo hcaller,
        entered_self hx, ih _ (hactive x hx)]
  cases n with
  | zero => exact (came c caller).dag.symm
  | succ n =>
    rw [Function.iterate_succ_apply, Function.iterate_succ_apply, step_undo hcaller]
    rw [hall n _ (hactive _ (came c caller).active)]

/-- **Undo reaches all there is to undo exactly where there is nothing to undo but on the document
it is for**: of all the documents of the workspace the caller may edit and that have a head,
none but the one most recently committed among the last commits of all workspaces, whose
content can be put back and whose commits are there. -/
theorem undoReaches_iff (hcaller : caller.isSystem = false) :
    c.UndoReaches caller ↔ ∀ d, (c.entered caller).Undoable d →
      (c.entered caller).undoableDoc = some d ∧ (c.entered caller).restores d = true ∧
        c.dag.Rooted (c.dag.head d) := by
  have hdag := (came c caller).dag
  constructor
  · intro h d hd
    obtain ⟨hok, -⟩ := h.once ⟨d, hd⟩
    rw [handleAs_undo hcaller] at hok
    obtain ⟨t, ht, hrestores⟩ := (undo_ok_iff _).1 hok
    obtain ⟨n, hn⟩ := h.all
    have hnone := hn d hd
    rw [steps_undo hcaller] at hnone
    have htd : (c.entered caller).undoableDoc = some d := by
      by_contra hne
      have hhead := hd.head
      rw [← head_undids_of_ne hne n, hnone] at hhead
      cases hhead
    obtain rfl := Option.some.inj (ht.symm.trans htd)
    exact ⟨ht, hrestores, hdag ▸ rooted_of_undids htd hnone⟩
  · intro h
    refine ⟨fun ⟨d, hd⟩ => ?_, ?_⟩
    · obtain ⟨ht, hrestores, -⟩ := h d hd
      rw [handleAs_undo hcaller]
      refine ⟨(undo_ok_iff _).2 ⟨d, ht, hrestores⟩, d, ?_⟩
      rw [step_undo hcaller]
      unfold undid
      rw [(undo_leaves _).2.2.2, ht]
      dsimp only [Dag.after]
      rw [← hdag]
      unfold restores at hrestores
      cases hundo : (c.entered caller).dag.undo d with
      | error e => rw [hundo] at hrestores; cases hrestores
      | ok r => exact ⟨r.1, hd, rfl⟩
    · by_cases hany : ∃ d, (c.entered caller).Undoable d
      · obtain ⟨d, hd⟩ := hany
        obtain ⟨ht, -, hrooted⟩ := h d hd
        obtain ⟨n, hn⟩ := undids_of_rooted ht (hdag ▸ hrooted)
        refine ⟨n, fun d' hd' => ?_⟩
        rw [steps_undo hcaller]
        obtain rfl := Option.some.inj ((h d' hd').1.symm.trans ht)
        exact hn
      · exact ⟨0, fun d hd => absurd ⟨d, hd⟩ hany⟩

/-- Somebody's computer, on which their notes were written. -/
def notesWritten : Core Sample.host :=
  (system Sample.host).run (.start Sample.computer [Sample.staged Sample.notes])
    [.request Sample.me (.callTool "notes.set" (.obj []))]

theorem undoReaches_iff_noted : notesWritten.UndoReaches Sample.me ↔
    ∀ d, (notesWritten.entered Sample.me).Undoable d →
      (notesWritten.entered Sample.me).undoableDoc = some d ∧
        (notesWritten.entered Sample.me).restores d = true ∧ notesWritten.dag.Rooted (notesWritten.dag.head d) :=
  undoReaches_iff (by decide)

/-- Their notes are written, then their sheets, and the sheets are undone. -/
def sheetsUndone : List Message :=
  [.request Sample.me (.callTool "notes.set" (.obj [])),
    .request Sample.me (.callTool "sheets.set" (.obj [])), .request Sample.me .undo]

/-- Undo then answers that there is nothing to undo: the notes are out of its reach. -/
theorem undo_misses : ¬∀ c : Core Sample.host, c.Reach (fun _ _ => True) →
    ∀ caller : Caller, caller.isSystem = false → caller.isViewer = false →
      c.UndoReaches caller := by
  intro h
  let c := (system Sample.host).run
    (.start Sample.computer [Sample.staged Sample.notes, Sample.staged Sample.sheets]) sheetsUndone
  have hreach : Reach (fun _ _ => True) c := ⟨_, _, System.runs_of_list (by decide +kernel)⟩
  have hundoable : ∃ d, (c.entered Sample.me).Undoable d :=
    ⟨((c.entered Sample.me).existingDocumentOf "notes").getD "", by decide +kernel,
      by decide +kernel, by decide +kernel, by decide +kernel⟩
  have hok := ((h c hreach Sample.me (by decide) (by decide)).once hundoable).1
  rw [handleAs_undo (by decide), undo_ok_iff] at hok
  obtain ⟨d, hd, hrestores⟩ := hok
  have hnone : (c.entered Sample.me).undoableDoc.all (fun d => !(c.entered Sample.me).restores d) =
      true := by
    decide +kernel
  rw [hd] at hnone
  simp [hrestores] at hnone

end Core

end LocalSpace
