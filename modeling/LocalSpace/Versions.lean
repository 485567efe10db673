import LocalSpace.Library.Zipper
import LocalSpace.Sample

/-!
# What the version DAG is for

For each document the DAG stands for a zipper of versions: what its head can be undone to,
newest first, and what can be redone, next first. `Dag.Shows dag doc z` says so of one document:
its head, the chain of parents behind it, and its redo stack are those of `z`.

Every operation is what it should be on the zippers (`Dag.Zips`), in every DAG reached by
operations whose commits get ids of their own: a commit goes on, `undo` and `redo` move by one
and hand back the content of the version they come to, and the drop of a run rewinds each of its
documents to before the run's oldest commit on it. Where that commit has been undone since, this
is no place of the zipper's past (`dropRun_revives`): the drop is of the run's branch, wherever
the head is.
-/

namespace LocalSpace

open Library

variable {H : Host}

/-- A version of a document: its commit and its content. -/
structure Version where
  commit : Commit
  bytes : Bytes

@[grind =]
def Version.id (v : Version) : CommitId :=
  v.commit.id

namespace Dag

variable {dag dag' : Dag} {doc : DocId}

variable (H) in
/-- The DAG holds a version of a document: its commit is recorded under its id, its content under
its hash. -/
structure Holds (dag : Dag) (doc : DocId) (v : Version) : Prop where
  recorded : dag.getCommit v.id = some v.commit
  doc_eq : v.commit.doc = doc
  hash : v.commit.docHash = H.blake3 v.bytes
  content : dag.getBlob v.commit.docHash = some v.bytes

variable (H) in
/-- The versions behind a head, along the parents. -/
def Behind (dag : Dag) (doc : DocId) : Option CommitId → List Version → Prop
  | none, [] => True
  | some id, v :: past => v.id = id ∧ dag.Holds H doc v ∧ Behind dag doc v.commit.parent past
  | _, _ => False

variable (H) in
/-- Versions that follow each other from a head on. -/
def Ahead (dag : Dag) (doc : DocId) : Option CommitId → List Version → Prop
  | _, [] => True
  | head, v :: future =>
    v.commit.parent = head ∧ dag.Holds H doc v ∧ Ahead dag doc (some v.id) future

/-- What can be redone on a document, next first. -/
@[grind =]
def redoStack (dag : Dag) (doc : DocId) : List CommitId :=
  (dag.redos.lookup doc).getD []

variable (H) in
/-- A document's head, the parents behind it and its redo stack are those of a zipper. -/
structure Shows (dag : Dag) (doc : DocId) (z : Zipper Version) : Prop where
  behind : dag.Behind H doc (dag.head doc) z.past
  ahead : dag.Ahead H doc (dag.head doc) z.future
  redo : dag.redoStack doc = z.future.map Version.id

/-! ### Heads and stacks -/

@[simp] theorem head_setHead_self (dag : Dag) (doc : DocId) (target : Option CommitId) :
    (dag.setHead doc target).head doc = target := by
  unfold setHead head
  cases target with
  | none => exact AList.lookup_erase _ _
  | some p => exact AList.lookup_insert _

theorem head_setHead_ne (dag : Dag) {doc d : DocId} (target : Option CommitId) (h : d ≠ doc) :
    (dag.setHead doc target).head d = dag.head d := by
  unfold setHead head
  cases target with
  | none => exact AList.lookup_erase_ne h
  | some p => exact AList.lookup_insert_ne h

/-- Moving a head changes heads alone. -/
theorem setHead_eq (dag : Dag) (doc : DocId) (target : Option CommitId) :
    ∃ heads, dag.setHead doc target = { dag with heads := heads } := by
  unfold setHead
  cases target with
  | none => exact ⟨_, rfl⟩
  | some p => exact ⟨_, rfl⟩

/-! ### What is behind and ahead -/

/-- A version is held by every DAG of the same commits and contents. -/
theorem Holds.congr {v : Version} (h : dag.Holds H doc v) (hc : dag'.commits = dag.commits)
    (hb : dag'.blobs = dag.blobs) : dag'.Holds H doc v where
  recorded := by unfold getCommit; rw [hc]; exact h.recorded
  doc_eq := h.doc_eq
  hash := h.hash
  content := by unfold getBlob; rw [hb]; exact h.content

/-- One id, one version. -/
theorem Holds.unique {v w : Version} (hv : dag.Holds H doc v) (hw : dag.Holds H doc w)
    (hid : v.id = w.id) : v = w := by
  have hcommit : v.commit = w.commit := by
    have := hv.recorded
    rw [hid, hw.recorded] at this
    exact (Option.some.inj this).symm
  have hbytes : v.bytes = w.bytes := by
    have := hv.content
    rw [hcommit, hw.content] at this
    exact (Option.some.inj this).symm
  cases v
  cases w
  simp_all

theorem Behind.mono {head : Option CommitId} {past : List Version}
    (h : dag.Behind H doc head past)
    (hold : ∀ v, dag.Holds H doc v → dag'.Holds H doc v) : dag'.Behind H doc head past := by
  induction past generalizing head with
  | nil => cases head <;> exact h
  | cons v past ih =>
    cases head with
    | none => exact h
    | some id => exact ⟨h.1, hold v h.2.1, ih h.2.2⟩

theorem Ahead.mono {head : Option CommitId} {future : List Version}
    (h : dag.Ahead H doc head future)
    (hold : ∀ v, dag.Holds H doc v → dag'.Holds H doc v) : dag'.Ahead H doc head future := by
  induction future generalizing head with
  | nil => trivial
  | cons v future ih => exact ⟨h.1, hold v h.2.1, ih h.2.2⟩

/-- What is behind a head is settled by it. -/
theorem Behind.unique {head : Option CommitId} {past past' : List Version}
    (h : dag.Behind H doc head past) (h' : dag.Behind H doc head past') : past = past' := by
  induction past generalizing head past' with
  | nil =>
    cases head with
    | none => cases past' with
      | nil => rfl
      | cons w past' => exact h'.elim
    | some id => exact h.elim
  | cons v past ih =>
    cases head with
    | none => exact h.elim
    | some id =>
      cases past' with
      | nil => exact h'.elim
      | cons w past' =>
        obtain rfl := h.2.1.unique h'.2.1 (h.1.trans h'.1.symm)
        rw [ih h.2.2 h'.2.2]

theorem Ahead.unique {head : Option CommitId} {future future' : List Version}
    (h : dag.Ahead H doc head future) (h' : dag.Ahead H doc head future')
    (hids : future.map Version.id = future'.map Version.id) : future = future' := by
  induction future generalizing head future' with
  | nil => simpa [eq_comm] using hids
  | cons v future ih =>
    cases future' with
    | nil => simp at hids
    | cons w future' =>
      simp only [List.map_cons, List.cons.injEq] at hids
      obtain rfl := h.2.1.unique h'.2.1 hids.1
      rw [ih h.2.2 h'.2.2 hids.2]

/-- A document shows one zipper. -/
theorem Shows.unique {z z' : Zipper Version} (h : dag.Shows H doc z) (h' : dag.Shows H doc z') :
    z = z' :=
  Zipper.ext (h.behind.unique h'.behind) (h.ahead.unique h'.ahead (h.redo.symm.trans h'.redo))

/-- The version a head is at, where it is behind by a list that is not empty. -/
theorem Behind.head?_map {head : Option CommitId} {past : List Version}
    (h : dag.Behind H doc head past) : past.head?.map Version.id = head := by
  cases past with
  | nil => cases head <;> first | rfl | exact h.elim
  | cons v past =>
    cases head with
    | none => exact h.elim
    | some id => exact congrArg some h.1

/-- What follows what is behind. -/
theorem Behind.drop {head : Option CommitId} {newer older : List Version} {v : Version}
    (h : dag.Behind H doc head (newer ++ v :: older)) :
    dag.Behind H doc (some v.id) (v :: older) := by
  induction newer generalizing head with
  | nil =>
    cases head with
    | none => exact h.elim
    | some id => exact ⟨rfl, h.2⟩
  | cons w newer ih =>
    cases head with
    | none => exact h.elim
    | some id => exact ih h.2.2

/-- The content of the version behind by a list is there to be read. -/
theorem Behind.content {id : CommitId} {past : List Version}
    (h : dag.Behind H doc (some id) past) : ∃ v older, past = v :: older ∧
      dag.getCommit id = some v.commit ∧ dag.getBlob v.commit.docHash = some v.bytes := by
  cases past with
  | nil => exact h.elim
  | cons v older => exact ⟨v, older, rfl, h.1 ▸ h.2.1.recorded, h.2.1.content⟩

/-! ### One operation -/

variable (H) in
/-- What a DAG is whose operations all went well: every commit recorded is under its own id and
has its parents behind it, and every document shows a zipper. -/
structure Sound (dag : Dag) : Prop where
  commits : ∀ id c, dag.getCommit id = some c →
    c.id = id ∧ ∃ past, dag.Behind H c.doc (some id) past
  shows : ∀ doc, ∃ z, dag.Shows H doc z

/-- What leaves one document's head and stack, and the commits and contents, leaves what it
shows. -/
theorem Shows.congr {z : Zipper Version} (h : dag.Shows H doc z)
    (hc : dag'.commits = dag.commits) (hb : dag'.blobs = dag.blobs)
    (hhead : dag'.head doc = dag.head doc) (hredo : dag'.redoStack doc = dag.redoStack doc) :
    dag'.Shows H doc z where
  behind := by rw [hhead]; exact h.behind.mono fun _ hv => hv.congr hc hb
  ahead := by rw [hhead]; exact h.ahead.mono fun _ hv => hv.congr hc hb
  redo := hredo.trans h.redo

/-- A change of one document's head and stack alone. -/
theorem Sound.move {z : Zipper Version} (hs : dag.Sound H) (hc : dag'.commits = dag.commits)
    (hb : dag'.blobs = dag.blobs) (hz : dag'.Shows H doc z)
    (hothers : ∀ d, d ≠ doc → dag'.head d = dag.head d ∧ dag'.redoStack d = dag.redoStack d) :
    dag'.Sound H where
  commits id c hid := by
    unfold getCommit at hid
    rw [hc] at hid
    obtain ⟨heq, past, hpast⟩ := hs.commits id c hid
    exact ⟨heq, past, hpast.mono fun _ hv => hv.congr hc hb⟩
  shows d := by
    by_cases hd : d = doc
    · exact hd ▸ ⟨z, hz⟩
    · obtain ⟨w, hw⟩ := hs.shows d
      exact ⟨w, hw.congr hc hb (hothers d hd).1 (hothers d hd).2⟩

/-! #### Commit -/

/-- A commit under an id of its own leaves every version held. -/
theorem Holds.commit (hinj : Function.Injective H.blake3) {e : Entry} {i a : Nat}
    (hnew : dag.getCommit (dag.commit H e i a).1.id = none) {v : Version}
    (h : dag.Holds H doc v) : (dag.commit H e i a).2.Holds H doc v where
  recorded := by
    refine (AList.lookup_insert_ne fun heq => ?_).trans h.recorded
    have hrecorded : dag.getCommit (dag.commit H e i a).1.id = some v.commit :=
      (congrArg dag.getCommit heq).symm.trans h.recorded
    rw [hnew] at hrecorded
    cases hrecorded
  doc_eq := h.doc_eq
  hash := h.hash
  content := by
    by_cases heq : v.commit.docHash = H.blake3 e.bytes
    · have hbytes : v.bytes = e.bytes := hinj (h.hash.symm.trans heq)
      rw [heq, hbytes]
      exact AList.lookup_insert _
    · exact (AList.lookup_insert_ne heq).trans h.content

theorem head_commit_self (dag : Dag) (e : Entry) (i a : Nat) :
    (dag.commit H e i a).2.head e.doc = some (dag.commit H e i a).1.id :=
  AList.lookup_insert _

theorem head_commit_ne (dag : Dag) {e : Entry} (i a : Nat) (h : doc ≠ e.doc) :
    (dag.commit H e i a).2.head doc = dag.head doc :=
  AList.lookup_insert_ne h

theorem redoStack_commit_self (dag : Dag) (e : Entry) (i a : Nat) :
    (dag.commit H e i a).2.redoStack e.doc = [] := by
  unfold redoStack
  rw [show (dag.commit H e i a).2.redos.lookup e.doc = none from AList.lookup_erase _ _]
  rfl

theorem redoStack_commit_ne (dag : Dag) {e : Entry} (i a : Nat) (h : doc ≠ e.doc) :
    (dag.commit H e i a).2.redoStack doc = dag.redoStack doc := by
  unfold redoStack
  rw [show (dag.commit H e i a).2.redos.lookup doc = dag.redos.lookup doc from
    AList.lookup_erase_ne h]

/-- The new commit is held, with its parents behind it. -/
theorem behind_commit (hinj : Function.Injective H.blake3) {e : Entry} {i a : Nat}
    (hnew : dag.getCommit (dag.commit H e i a).1.id = none) {past : List Version}
    (h : dag.Behind H e.doc (dag.head e.doc) past) :
    (dag.commit H e i a).2.Behind H e.doc (some (dag.commit H e i a).1.id)
      (⟨(dag.commit H e i a).1, e.bytes⟩ :: past) := by
  refine ⟨rfl, ⟨AList.lookup_insert _, rfl, rfl, AList.lookup_insert _⟩, ?_⟩
  exact h.mono fun _ hv => hv.commit hinj hnew

/-- **A commit goes on** from what its document shows, and forgets what could be redone. -/
theorem Shows.commit (hinj : Function.Injective H.blake3) {e : Entry} {i a : Nat}
    (hnew : dag.getCommit (dag.commit H e i a).1.id = none) {z : Zipper Version}
    (h : dag.Shows H e.doc z) :
    (dag.commit H e i a).2.Shows H e.doc (z.push ⟨(dag.commit H e i a).1, e.bytes⟩) where
  behind := by
    rw [head_commit_self]
    exact behind_commit hinj hnew h.behind
  ahead := trivial
  redo := redoStack_commit_self dag e i a

theorem Sound.commit (hinj : Function.Injective H.blake3) (hs : dag.Sound H) {e : Entry}
    {i a : Nat} (hnew : dag.getCommit (dag.commit H e i a).1.id = none) :
    (dag.commit H e i a).2.Sound H where
  commits id c hid := by
    by_cases heq : id = (dag.commit H e i a).1.id
    · subst heq
      obtain rfl := Option.some.inj ((AList.lookup_insert _).symm.trans hid)
      obtain ⟨z, hz⟩ := hs.shows e.doc
      exact ⟨rfl, _, behind_commit hinj hnew hz.behind⟩
    · obtain ⟨hc, past, hpast⟩ := hs.commits id c ((AList.lookup_insert_ne heq).symm.trans hid)
      exact ⟨hc, past, hpast.mono fun _ hv => hv.commit hinj hnew⟩
  shows d := by
    obtain ⟨z, hz⟩ := hs.shows d
    by_cases hd : d = e.doc
    · exact hd ▸ ⟨_, (hd ▸ hz).commit hinj hnew⟩
    · refine ⟨z, ?_, ?_, ?_⟩
      · rw [head_commit_ne dag i a hd]
        exact hz.behind.mono fun _ hv => hv.commit hinj hnew
      · rw [head_commit_ne dag i a hd]
        exact hz.ahead.mono fun _ hv => hv.commit hinj hnew
      · rw [redoStack_commit_ne dag i a hd]
        exact hz.redo

/-! #### Undo and redo -/

/-- The DAG with a document's head and its stack moved. -/
def moved (dag : Dag) (doc : DocId) (head : Option CommitId) (stack : List CommitId) : Dag :=
  { dag.setHead doc head with redos := dag.redos.insert doc stack }

@[simp] theorem commits_moved (dag : Dag) (doc : DocId) (head : Option CommitId)
    (stack : List CommitId) : (dag.moved doc head stack).commits = dag.commits := by
  obtain ⟨heads, h⟩ := dag.setHead_eq doc head
  unfold moved
  rw [h]

@[simp] theorem blobs_moved (dag : Dag) (doc : DocId) (head : Option CommitId)
    (stack : List CommitId) : (dag.moved doc head stack).blobs = dag.blobs := by
  obtain ⟨heads, h⟩ := dag.setHead_eq doc head
  unfold moved
  rw [h]

theorem moved_others {head : Option CommitId} {stack : List CommitId} {d : DocId} (hd : d ≠ doc) :
    (dag.moved doc head stack).head d = dag.head d ∧
      (dag.moved doc head stack).redoStack d = dag.redoStack d := by
  refine ⟨head_setHead_ne dag head hd, ?_⟩
  unfold redoStack
  rw [show (dag.moved doc head stack).redos.lookup d = dag.redos.lookup d from
    AList.lookup_insert_ne hd]

theorem Shows.moved {z' : Zipper Version} {head : Option CommitId} {stack : List CommitId}
    (hb : dag.Behind H doc head z'.past) (ha : dag.Ahead H doc head z'.future)
    (hstack : stack = z'.future.map Version.id) :
    (dag.moved doc head stack).Shows H doc z' := by
  have hhead : (dag.moved doc head stack).head doc = head := head_setHead_self dag doc head
  have hcommits := dag.commits_moved doc head stack
  have hblobs := dag.blobs_moved doc head stack
  refine ⟨?_, ?_, ?_⟩
  · rw [hhead]
    exact hb.mono fun _ hv => hv.congr hcommits hblobs
  · rw [hhead]
    exact ha.mono fun _ hv => hv.congr hcommits hblobs
  · rw [← hstack]
    unfold redoStack
    rw [show (dag.moved doc head stack).redos.lookup doc = some stack from AList.lookup_insert _]
    rfl

theorem Sound.moved {z : Zipper Version} (hs : dag.Sound H) {head : Option CommitId}
    {stack : List CommitId} (hz : (dag.moved doc head stack).Shows H doc z) :
    (dag.moved doc head stack).Sound H :=
  hs.move (dag.commits_moved doc head stack) (dag.blobs_moved doc head stack) hz fun _ hd =>
    moved_others hd

/-- With nothing behind it a document has nothing to undo. -/
theorem Shows.undo_none {z : Zipper Version} (h : dag.Shows H doc z) (hz : z.back = none) :
    dag.undo doc = .error "nothing to undo" := by
  have hpast : z.past = [] := by
    unfold Zipper.back at hz
    split at hz
    · assumption
    · cases hz
  have hhead := h.behind.head?_map
  rw [hpast] at hhead
  unfold Dag.undo
  rw [← hhead]
  rfl

/-- **`undo` goes one back**, and hands back the content of the version it comes to, none before
the first. -/
theorem Shows.undo {z z' : Zipper Version} (h : dag.Shows H doc z) (hz : z.back = some z') :
    ∃ r head stack, dag.undo doc = .ok (r, dag.moved doc head stack) ∧ r.doc = doc ∧
      r.bytes = z'.past.head?.map Version.bytes ∧
      (dag.moved doc head stack).Shows H doc z' := by
  obtain ⟨v, hpast, hfuture⟩ := Zipper.back_eq_some_iff.1 hz
  have hbehind := h.behind
  have hhead := hbehind.head?_map
  rw [hpast] at hbehind hhead
  rw [← hhead] at hbehind
  have hcommit : dag.getCommit v.id = some v.commit := hbehind.2.1.recorded
  have hshows : (dag.moved doc v.commit.parent (v.id :: dag.redoStack doc)).Shows H doc z' := by
    refine Shows.moved hbehind.2.2 ?_ ?_
    · rw [hfuture]
      refine ⟨rfl, hbehind.2.1, ?_⟩
      have := h.ahead
      rwa [← hhead] at this
    · rw [hfuture, h.redo]
      rfl
  refine ⟨⟨doc, z'.past.head?.map Version.bytes, s!"undid: {v.commit.diffSummary}"⟩,
    v.commit.parent, v.id :: dag.redoStack doc, ?_, rfl, rfl, hshows⟩
  unfold Dag.undo
  rw [← hhead]
  simp only [List.head?_cons, Option.map_some, hcommit]
  cases hparent : v.commit.parent with
  | none =>
    have hempty : z'.past = [] := by
      have := hbehind.2.2.head?_map
      rw [hparent] at this
      simpa using this
    rw [hempty]
    rfl
  | some p =>
    have hp := hbehind.2.2
    rw [hparent] at hp
    obtain ⟨w, older, hw, hwc, hwb⟩ := hp.content
    simp only [hwc, hwb, hw, List.head?_cons, Option.map_some]
    rfl

/-- With nothing ahead of it a document has nothing to redo. -/
theorem Shows.redo_none {z : Zipper Version} (h : dag.Shows H doc z) (hz : z.forth = none) :
    dag.redo doc = (.error "nothing to redo", dag) := by
  have hfuture : z.future = [] := by
    unfold Zipper.forth at hz
    split at hz
    · assumption
    · cases hz
  have hstack := h.redo
  rw [hfuture] at hstack
  unfold redoStack at hstack
  unfold Dag.redo
  rw [hstack]
  rfl

/-- **`redo` goes one forth**, and hands back the content of the version it comes to. -/
theorem Shows.redo' {z z' : Zipper Version} (h : dag.Shows H doc z) (hz : z.forth = some z') :
    ∃ r head stack, dag.redo doc = (.ok r, dag.moved doc head stack) ∧ r.doc = doc ∧
      r.bytes = z'.past.head?.map Version.bytes ∧
      (dag.moved doc head stack).Shows H doc z' := by
  obtain ⟨v, hfuture, hpast⟩ := Zipper.forth_eq_some_iff.1 hz
  have hahead := h.ahead
  rw [hfuture] at hahead
  have hstack : (dag.redos.lookup doc).getD [] = v.id :: z'.future.map Version.id := by
    have := h.redo
    rwa [hfuture] at this
  refine ⟨⟨doc, some v.bytes, s!"redid: {v.commit.diffSummary}"⟩, some v.id,
    z'.future.map Version.id, ?_, rfl, by rw [hpast]; rfl, ?_⟩
  · unfold Dag.redo
    rw [hstack]
    have hcommit : (dag.setHead doc (some v.id)).getCommit v.id = some v.commit :=
      hahead.2.1.recorded
    have hblob : dag.getBlob v.commit.docHash = some v.bytes := hahead.2.1.content
    simp only [show dag.getCommit v.id = some v.commit from hcommit, hblob]
    rfl
  · refine Shows.moved ?_ hahead.2.2 rfl
    rw [hpast]
    refine ⟨rfl, hahead.2.1, ?_⟩
    rw [hahead.1]
    exact h.behind

/-! #### The drop of a run -/

/-- A run's oldest commit on a document. -/
def oldestOf (dag : Dag) (run : String) (doc : DocId) : Option Commit :=
  (dag.all.filter fun c => c.run = some run ∧ c.doc = doc).getLast?

/-- Where the drop of a run leaves a document's head. -/
@[grind =]
def before (dag : Dag) (run : String) (doc : DocId) : Option CommitId :=
  (dag.oldestOf run doc).bind Commit.parent

/-- What `dropDoc` does of some documents leaves them where they were before the run, and the
others as they were. -/
theorem dropDocs (all : List Commit) (run : String) (docs : List DocId)
    (acc : List Revert × Dag) :
    let r := docs.foldl (fun (acc : List Revert × Dag) doc =>
      let r := dropDoc all run acc.2 doc
      (acc.1 ++ [r.1], r.2)) acc
    r.2.commits = acc.2.commits ∧ r.2.blobs = acc.2.blobs ∧ r.2.order = acc.2.order ∧
      (∀ d ∈ docs, r.2.head d = ((all.filter fun c => c.run = some run ∧ c.doc = d).getLast?.bind
        Commit.parent) ∧ r.2.redoStack d = []) ∧
      ∀ d, d ∉ docs → r.2.head d = acc.2.head d ∧ r.2.redoStack d = acc.2.redoStack d := by
  induction docs generalizing acc with
  | nil => exact ⟨rfl, rfl, rfl, by simp, fun _ _ => ⟨rfl, rfl⟩⟩
  | cons doc docs ih =>
    obtain ⟨hc, hb, ho, hin, hout⟩ := ih
      (acc.1 ++ [(dropDoc all run acc.2 doc).1], (dropDoc all run acc.2 doc).2)
    rw [List.foldl_cons]
    have hfirst : (dropDoc all run acc.2 doc).2.commits = acc.2.commits ∧
        (dropDoc all run acc.2 doc).2.blobs = acc.2.blobs ∧
        (dropDoc all run acc.2 doc).2.order = acc.2.order := by
      unfold dropDoc
      dsimp only
      obtain ⟨heads, h⟩ := acc.2.setHead_eq doc
        ((all.filter fun c => c.run = some run ∧ c.doc = doc).getLast?.bind Commit.parent)
      rw [h]
      exact ⟨rfl, rfl, rfl⟩
    have hself : (dropDoc all run acc.2 doc).2.head doc =
        ((all.filter fun c => c.run = some run ∧ c.doc = doc).getLast?.bind Commit.parent) ∧
        (dropDoc all run acc.2 doc).2.redoStack doc = [] := by
      refine ⟨head_setHead_self _ _ _, ?_⟩
      unfold redoStack
      rw [show (dropDoc all run acc.2 doc).2.redos.lookup doc = none from AList.lookup_erase _ _]
      rfl
    have hothers : ∀ d, d ≠ doc → (dropDoc all run acc.2 doc).2.head d = acc.2.head d ∧
        (dropDoc all run acc.2 doc).2.redoStack d = acc.2.redoStack d := by
      intro d hd
      refine ⟨head_setHead_ne _ _ hd, ?_⟩
      unfold redoStack dropDoc
      dsimp only
      obtain ⟨heads, h⟩ := acc.2.setHead_eq doc
        ((all.filter fun c => c.run = some run ∧ c.doc = doc).getLast?.bind Commit.parent)
      rw [AList.lookup_erase_ne hd, h]
    refine ⟨hc.trans hfirst.1, hb.trans hfirst.2.1, ho.trans hfirst.2.2, fun d hd => ?_,
      fun d hd => ?_⟩
    · by_cases hmem : d ∈ docs
      · exact hin d hmem
      · obtain rfl : d = doc := (List.mem_cons.1 hd).resolve_right hmem
        exact ⟨(hout d hmem).1.trans hself.1, (hout d hmem).2.trans hself.2⟩
    · obtain ⟨hne, hmem⟩ := not_or.1 (mt List.mem_cons.2 hd)
      exact ⟨(hout d hmem).1.trans (hothers d hne).1, (hout d hmem).2.trans (hothers d hne).2⟩

/-- The documents a dropped run touched are left where they were before it, with nothing to
redo; the others as they were. -/
theorem dropRun_spec {run : String} {reverts : List Revert}
    (h : dag.dropRun run = .ok (reverts, dag')) :
    dag'.commits = dag.commits ∧ dag'.blobs = dag.blobs ∧ dag'.order = dag.order ∧
      (∀ doc, (dag.oldestOf run doc).isSome = true →
        dag'.head doc = dag.before run doc ∧ dag'.redoStack doc = []) ∧
      ∀ doc, dag.oldestOf run doc = none →
        dag'.head doc = dag.head doc ∧ dag'.redoStack doc = dag.redoStack doc := by
  unfold dropRun at h
  dsimp only at h
  split at h
  · cases h
  · obtain ⟨hc, hb, ho, hin, hout⟩ := dropDocs dag.all run
      (sortDedup ((dag.all.filter fun c => c.run = some run).map Commit.doc)) ([], dag)
    rw [Except.ok.inj h] at hc hb ho hin hout
    have hmem : ∀ doc, doc ∈ sortDedup ((dag.all.filter fun c => c.run = some run).map Commit.doc) ↔
        (dag.oldestOf run doc).isSome = true := by
      intro doc
      rw [mem_sortDedup]
      unfold oldestOf
      rw [List.getLast?_isSome, ← List.isEmpty_eq_false_iff, List.isEmpty_eq_false_iff_exists_mem]
      simp [and_assoc]
    refine ⟨hc, hb, ho, fun doc hdoc => hin doc ((hmem doc).2 hdoc), fun doc hdoc => hout doc ?_⟩
    rw [hmem, hdoc]
    simp

/-- The versions a run's oldest commit on a document was made on. -/
theorem Sound.behind_oldest (hs : dag.Sound H) {run : String} {first : Commit}
    (h : dag.oldestOf run doc = some first) : ∃ past, dag.Behind H doc first.parent past := by
  have hmem := List.mem_filter.1 (List.mem_of_getLast? h)
  obtain ⟨id, -, hid⟩ := List.mem_filterMap.1 hmem.1
  obtain ⟨-, past, hpast⟩ := hs.commits id first hid
  obtain ⟨v, older, rfl, hv, -⟩ := hpast.content
  obtain rfl : first = v.commit := Option.some.inj (hid.symm.trans hv)
  have hdoc : v.commit.doc = doc := by simpa using (of_decide_eq_true hmem.2).2
  exact ⟨older, hdoc ▸ hpast.2.2⟩

/-- **The drop of a run rewinds each document** to what the run's oldest commit on it was made
on. -/
theorem Sound.drop (hs : dag.Sound H) {run : String} {reverts : List Revert} {first : Commit}
    (h : dag.dropRun run = .ok (reverts, dag')) (hfirst : dag.oldestOf run doc = some first) :
    ∃ past, dag.Behind H doc first.parent past ∧ dag'.Shows H doc (.rewind past) := by
  obtain ⟨hc, hb, -, hin, -⟩ := dropRun_spec h
  obtain ⟨past, hpast⟩ := hs.behind_oldest hfirst
  obtain ⟨hhead, hstack⟩ := hin doc (by rw [hfirst]; rfl)
  refine ⟨past, hpast, ?_, trivial, hstack⟩
  rw [hhead]
  unfold before
  rw [hfirst]
  exact hpast.mono fun _ hv => hv.congr hc hb

theorem Sound.dropRun (hs : dag.Sound H) {run : String} {reverts : List Revert}
    (h : dag.dropRun run = .ok (reverts, dag')) : dag'.Sound H := by
  obtain ⟨hc, hb, -, -, hout⟩ := dropRun_spec h
  refine ⟨fun id c hid => ?_, fun doc => ?_⟩
  · unfold getCommit at hid
    rw [hc] at hid
    obtain ⟨heq, past, hpast⟩ := hs.commits id c hid
    exact ⟨heq, past, hpast.mono fun _ hv => hv.congr hc hb⟩
  · cases hfirst : dag.oldestOf run doc with
    | none =>
      obtain ⟨z, hz⟩ := hs.shows doc
      exact ⟨z, hz.congr hc hb (hout doc hfirst).1 (hout doc hfirst).2⟩
    | some first =>
      obtain ⟨past, -, hz⟩ := hs.drop h hfirst
      exact ⟨_, hz⟩

/-! ### Sequences of operations -/

inductive Op where
  | commit (e : Entry) (idNow atNow : Nat)
  | undo (doc : DocId)
  | redo (doc : DocId)
  | dropRun (run : String)

variable (H) in
/-- The DAG after an operation; one that fails leaves it. -/
@[grind =]
def after (dag : Dag) : Op → Dag
  | .commit e idNow atNow => (dag.commit H e idNow atNow).2
  | .undo doc =>
    match dag.undo doc with
    | .ok r => r.2
    | .error _ => dag
  | .redo doc => (dag.redo doc).2
  | .dropRun run =>
    match dag.dropRun run with
    | .ok r => r.2
    | .error _ => dag

variable (H) in
/-- The id a commit gets is nobody's yet. -/
def newId (dag : Dag) : Op → Bool
  | .commit e idNow atNow => (dag.getCommit (dag.commit H e idNow atNow).1.id).isNone
  | _ => true

/-- The documents an operation is about. -/
def about (dag : Dag) : Op → DocId → Prop
  | .commit e _ _, doc => doc = e.doc
  | .undo d, doc => doc = d
  | .redo d, doc => doc = d
  | .dropRun run, doc => (dag.oldestOf run doc).isSome = true

variable (H) in
/-- The DAG with its operations. -/
def operations : System Dag Op :=
  ⟨after H, fun _ _ => True⟩

instance (dag : Dag) (op : Op) : Decidable ((operations H).enabled dag op) :=
  .isTrue trivial

/-- The content a document's head is at. -/
def headContent (dag : Dag) (doc : DocId) : Option Bytes :=
  ((dag.head doc).bind dag.getCommit).bind fun c => dag.getBlob c.docHash

/-- `undo`, where it succeeds. -/
def undone (doc : DocId) (dag : Dag) : Option Dag :=
  (dag.undo doc).toOption.map Prod.snd

/-- `redo`, where it succeeds. -/
def redone (doc : DocId) (dag : Dag) : Option Dag :=
  (dag.redo doc).1.toOption.map fun _ => (dag.redo doc).2

theorem Sound.empty : (empty : Dag).Sound H :=
  ⟨fun _ _ h => by simp [getCommit, Dag.empty] at h,
    fun _ => ⟨.empty, ⟨trivial, trivial, rfl⟩⟩⟩

theorem Sound.undo (hs : dag.Sound H) {r : Revert} (h : dag.undo doc = .ok (r, dag')) :
    dag'.Sound H := by
  obtain ⟨z, hz⟩ := hs.shows doc
  cases hback : z.back with
  | none => rw [hz.undo_none hback] at h; cases h
  | some z' =>
    obtain ⟨r', head, stack, hundo, -, -, hshows⟩ := hz.undo hback
    rw [hundo] at h
    cases h
    exact hs.moved hshows

theorem Sound.redo (hs : dag.Sound H) (doc : DocId) : (dag.redo doc).2.Sound H := by
  obtain ⟨z, hz⟩ := hs.shows doc
  cases hforth : z.forth with
  | none => rw [hz.redo_none hforth]; exact hs
  | some z' =>
    obtain ⟨r, head, stack, hredo, -, -, hshows⟩ := hz.redo' hforth
    rw [hredo]
    exact hs.moved hshows

/-- Every operation keeps the DAG sound, a commit under an id of its own. -/
theorem Sound.after (hinj : Function.Injective H.blake3) (hs : dag.Sound H) {op : Op}
    (hnew : dag.newId H op = true) : (dag.after H op).Sound H := by
  cases op with
  | commit e idNow atNow => exact hs.commit hinj (by simpa [newId] using hnew)
  | undo doc =>
    unfold Dag.after
    dsimp only
    split
    · next h => exact hs.undo h
    · exact hs
  | redo doc => exact hs.redo doc
  | dropRun run =>
    unfold Dag.after
    dsimp only
    split
    · next h => exact hs.dropRun h
    · exact hs

/-- In every DAG reached by commits of ids of their own, every document shows a zipper. -/
theorem sound_of_runs (hinj : Function.Injective H.blake3)
    (h : (operations H).Runs (fun dag op => dag.newId H op = true) .empty dag) : dag.Sound H :=
  h.invariant .empty fun _ _ hs _ hnew => hs.after hinj hnew

/-- An operation leaves the documents it is not about. -/
theorem after_others {op : Op} (h : ¬dag.about op doc) :
    (dag.after H op).head doc = dag.head doc ∧
      (dag.after H op).redoStack doc = dag.redoStack doc := by
  cases op with
  | commit e idNow atNow =>
    exact ⟨head_commit_ne dag idNow atNow h, redoStack_commit_ne dag idNow atNow h⟩
  | undo d =>
    unfold Dag.after
    dsimp only
    split
    · next r hundo =>
      have hmoved : ∃ head stack, r.2 = dag.moved d head stack := by
        unfold Dag.undo at hundo
        split at hundo
        · cases hundo
        · split at hundo
          · cases hundo
          · dsimp only at hundo
            split at hundo
            · cases hundo
              exact ⟨_, _, rfl⟩
            · split at hundo
              · cases hundo
              · cases hundo
                exact ⟨_, _, rfl⟩
      obtain ⟨head, stack, heq⟩ := hmoved
      rw [heq]
      exact moved_others h
    · exact ⟨rfl, rfl⟩
  | redo d =>
    unfold Dag.after Dag.redo
    dsimp only
    split
    · exact ⟨rfl, rfl⟩
    · next id rest _ =>
      have hmoved : ∀ r : Except String Revert,
          (r, dag.moved d (some id) rest).2 = dag.moved d (some id) rest := fun _ => rfl
      split <;> exact moved_others h
  | dropRun run =>
    unfold Dag.after
    dsimp only
    split
    · next hdrop => exact (dropRun_spec hdrop).2.2.2.2 doc (by simpa [about] using h)
    · exact ⟨rfl, rfl⟩

/-! ### Many undos and redos -/

/-- Undoing as often as there is something behind, and redoing as often, comes to where one
began. -/
theorem Shows.undos_redos {z : Zipper Version} (h : dag.Shows H doc z) {n : Nat}
    (hn : n ≤ z.past.length) : ∃ dag₁ dag₂, times (undone doc) n dag = some dag₁ ∧
      times (redone doc) n dag₁ = some dag₂ ∧ dag₂.Shows H doc z := by
  have hundos : ∀ (n : Nat) (dag : Dag) (z z' : Zipper Version), dag.Shows H doc z →
      times Zipper.back n z = some z' →
      ∃ dag', times (undone doc) n dag = some dag' ∧ dag'.Shows H doc z' := by
    intro n
    induction n with
    | zero => exact fun dag z z' hz h => ⟨dag, rfl, by cases h; exact hz⟩
    | succ n ih =>
      intro dag z z' hz h
      obtain ⟨w, hw, hrest⟩ := Option.bind_eq_some_iff.1 h
      obtain ⟨r, head, stack, hundo, -, -, hshows⟩ := hz.undo hw
      obtain ⟨dag', hdag', hz'⟩ := ih _ _ _ hshows hrest
      refine ⟨dag', ?_, hz'⟩
      rw [times]
      unfold undone at hdag' ⊢
      rw [hundo]
      exact hdag'
  have hredos : ∀ (n : Nat) (dag : Dag) (z z' : Zipper Version), dag.Shows H doc z →
      times Zipper.forth n z = some z' →
      ∃ dag', times (redone doc) n dag = some dag' ∧ dag'.Shows H doc z' := by
    intro n
    induction n with
    | zero => exact fun dag z z' hz h => ⟨dag, rfl, by cases h; exact hz⟩
    | succ n ih =>
      intro dag z z' hz h
      obtain ⟨w, hw, hrest⟩ := Option.bind_eq_some_iff.1 h
      obtain ⟨r, head, stack, hredo, -, -, hshows⟩ := hz.redo' hw
      obtain ⟨dag', hdag', hz'⟩ := ih _ _ _ hshows hrest
      refine ⟨dag', ?_, hz'⟩
      rw [times]
      unfold redone at hdag' ⊢
      rw [hredo]
      exact hdag'
  obtain ⟨w, hw⟩ := Option.isSome_iff_exists.1 (Zipper.backs_isSome hn)
  obtain ⟨dag₁, hdag₁, hw₁⟩ := hundos n dag z w h hw
  obtain ⟨dag₂, hdag₂, hz₂⟩ := hredos n dag₁ w z hw₁ (Zipper.forths_of_backs hw)
  exact ⟨dag₁, dag₂, hdag₁, hdag₂, hz₂⟩

/-- What a document shows settles the content its head is at. -/
theorem Shows.headContent {z : Zipper Version} (h : dag.Shows H doc z) :
    dag.headContent doc = z.past.head?.map Version.bytes := by
  have hhead := h.behind.head?_map
  unfold Dag.headContent
  rw [← hhead]
  cases hpast : z.past with
  | nil => rfl
  | cons v past =>
    have hb := h.behind
    rw [hpast, ← hhead, hpast] at hb
    simp only [List.head?_cons, Option.map_some, Option.bind_some]
    rw [show dag.getCommit v.id = some v.commit from hb.2.1.recorded, Option.bind_some]
    exact hb.2.1.content

variable (H) in
/-- Every document shows one zipper, and the operations are what they should be on it. -/
structure Zips (dag : Dag) : Prop where
  shows : ∀ doc, ∃! z, dag.Shows H doc z
  commit : ∀ e idNow atNow z, dag.newId H (.commit e idNow atNow) = true →
    dag.Shows H e.doc z → (dag.commit H e idNow atNow).2.Shows H e.doc
      (z.push ⟨(dag.commit H e idNow atNow).1, e.bytes⟩)
  undo : ∀ doc z, dag.Shows H doc z → match z.back with
    | none => dag.undo doc = .error "nothing to undo"
    | some z' => ∃ r dag', dag.undo doc = .ok (r, dag') ∧
      r.bytes = z'.past.head?.map Version.bytes ∧ dag'.Shows H doc z'
  redo : ∀ doc z, dag.Shows H doc z → match z.forth with
    | none => dag.redo doc = (.error "nothing to redo", dag)
    | some z' => ∃ r dag', dag.redo doc = (.ok r, dag') ∧
      r.bytes = z'.past.head?.map Version.bytes ∧ dag'.Shows H doc z'
  undos_redos : ∀ doc z n, dag.Shows H doc z → n ≤ z.past.length →
    ∃ dag₁ dag₂, times (undone doc) n dag = some dag₁ ∧ times (redone doc) n dag₁ = some dag₂ ∧
      dag₂.head doc = dag.head doc ∧ dag₂.headContent doc = dag.headContent doc ∧
      dag₂.Shows H doc z
  /-- To what the run's oldest commit on the document was made on: where that commit is behind,
  to just before it. -/
  drop : ∀ run reverts dag' doc first, dag.dropRun run = .ok (reverts, dag') →
    dag.oldestOf run doc = some first → ∃ past, dag'.Shows H doc (.rewind past) ∧
      dag.Behind H doc first.parent past ∧
      ∀ z newer v older, dag.Shows H doc z → z.past = newer ++ v :: older → v.commit = first →
        past = older
  others : ∀ op doc, ¬dag.about op doc → (dag.after H op).head doc = dag.head doc ∧
    (dag.after H op).redoStack doc = dag.redoStack doc

theorem Sound.zips (hinj : Function.Injective H.blake3) (hs : dag.Sound H) : dag.Zips H where
  shows doc := by
    obtain ⟨z, hz⟩ := hs.shows doc
    exact ⟨z, hz, fun _ hz' => hz'.unique hz⟩
  commit e idNow atNow z hnew hz := hz.commit hinj (by simpa [newId] using hnew)
  undo doc z hz := by
    split
    · next h => exact hz.undo_none h
    · next z' h =>
      obtain ⟨r, head, stack, hundo, -, hbytes, hshows⟩ := hz.undo h
      exact ⟨r, _, hundo, hbytes, hshows⟩
  redo doc z hz := by
    split
    · next h => exact hz.redo_none h
    · next z' h =>
      obtain ⟨r, head, stack, hredo, -, hbytes, hshows⟩ := hz.redo' h
      exact ⟨r, _, hredo, hbytes, hshows⟩
  undos_redos doc z n hz hn := by
    obtain ⟨dag₁, dag₂, hundos, hredos, hz₂⟩ := hz.undos_redos hn
    refine ⟨dag₁, dag₂, hundos, hredos, ?_, ?_, hz₂⟩
    · exact hz₂.behind.head?_map.symm.trans hz.behind.head?_map
    · exact hz₂.headContent.trans hz.headContent.symm
  drop run reverts dag' doc first hdrop hfirst := by
    obtain ⟨past, hpast, hshows⟩ := hs.drop hdrop hfirst
    refine ⟨past, hshows, hpast, fun z newer v older hz heq hv => ?_⟩
    have hbehind := hz.behind
    rw [heq] at hbehind
    have hthere := hbehind.drop.2.2
    rw [hv] at hthere
    exact hpast.unique hthere
  others op doc h := after_others h

/-- **The version DAG is a zipper a document**, in every DAG reached by commits of ids of their
own, undos, redos and drops of runs, in any order over any documents. -/
theorem zips_of_runs (hinj : Function.Injective H.blake3)
    (h : (operations H).Runs (fun dag op => dag.newId H op = true) .empty dag) : dag.Zips H :=
  (sound_of_runs hinj h).zips hinj

/-- A commit of one byte on the document `d`. -/
@[grind =]
def written (content : UInt8) (run : Option String) : Op :=
  .commit ⟨"d", "notes", "t", .null, [content], "", .user, run⟩ 0 0

theorem zips_of_runs_written :
    ((operations Sample.spelled).run .empty [written 97 none, written 98 (some "r"),
      .undo "d", .redo "d", .dropRun "r"]).Zips Sample.spelled :=
  zips_of_runs Sample.spelled_injective (System.runs_of_list (by decide +kernel))

/-- A run's commit and the one it was made on are undone, another takes their place; the drop
of the run then brings back the undone commit it was made on. -/
def revival : List Op :=
  [written 97 none, written 98 (some "r"), .undo "d", .undo "d", written 99 none]

/-- The drop of a run does not always cut the past back. -/
theorem dropRun_revives : ¬∀ dag : Dag,
    (operations Sample.spelled).Runs (fun dag op => dag.newId Sample.spelled op = true) .empty dag →
    ∀ run reverts dag', dag.dropRun run = .ok (reverts, dag') →
    ∀ doc z z', dag.Shows Sample.spelled doc z → dag'.Shows Sample.spelled doc z' →
      z'.past <:+ z.past := by
  intro h
  let dag := (operations Sample.spelled).run .empty revival
  have hruns : (operations Sample.spelled).Runs
      (fun dag op => dag.newId Sample.spelled op = true) .empty dag :=
    System.runs_of_list (by decide +kernel)
  have hsound := sound_of_runs Sample.spelled_injective hruns
  obtain ⟨z, hz⟩ := hsound.shows "d"
  have hok : (dag.dropRun "r").toBool = true := by decide +kernel
  cases hdrop : dag.dropRun "r" with
  | error e => rw [hdrop] at hok; cases hok
  | ok r =>
    obtain ⟨z', hz'⟩ := (hsound.dropRun hdrop).shows "d"
    have hcut := h dag hruns "r" r.1 r.2 hdrop "d" z z' hz hz'
    have hhead := hz.behind.head?_map
    have hhead' := hz'.behind.head?_map
    rw [((dropRun_spec hdrop).2.2.2.1 "d" (by decide +kernel)).1] at hhead'
    -- only the last commit is behind, and it is not the one that comes back
    have hfirst : ((dag.head "d").bind dag.getCommit).map Commit.parent = some none := by
      decide +kernel
    have hother : dag.before "r" "d" ≠ none ∧ dag.before "r" "d" ≠ dag.head "d" := by
      decide +kernel
    have hpast : z.past.tail = [] := by
      have hb := hz.behind
      rw [← hhead] at hb hfirst
      cases hp : z.past with
      | nil => rfl
      | cons v rest =>
        rw [hp] at hb hfirst
        have hv : dag.getCommit v.id = some v.commit := hb.2.1.recorded
        have hrest := hb.2.2
        simp only [List.head?_cons, Option.map_some, Option.bind_some, hv,
          Option.some.injEq] at hfirst
        rw [hfirst] at hrest
        simpa using hrest.head?_map
    rw [← hhead, ← hhead'] at hother
    cases hp : z.past with
    | nil =>
      rw [hp] at hcut
      simp [List.suffix_nil.1 hcut] at hother
    | cons v rest =>
      rw [hp] at hcut hpast hother
      obtain rfl : rest = [] := hpast
      rcases List.suffix_cons_iff.1 hcut with hsame | hnil
      · exact hother.2 (by rw [hsame])
      · exact hother.1 (by rw [List.suffix_nil.1 hnil]; rfl)

end Dag

end LocalSpace
