import Mathlib.Data.List.Induction
import LocalSpace.Versions

/-!
# What the history keeps

A commit's id is a hash of its document, its tool, its content, its parent and the millisecond;
its author, its parameters and its run are not in it. So the history is append-only along a
sequence of operations exactly where no two commits of it hash the same text
(`appendOnly_iff`): one made, undone and made again within a millisecond takes the place of
the first (`commit_replaces`).
-/

namespace LocalSpace

open Library

variable {H : Host}

namespace Dag

variable {dag : Dag} {op : Op} {ops : List Op} {texts : List String}

/-- The text a commit's id is the hash of. -/
def idText (doc : DocId) (tool docHash : String) (parent : Option CommitId) (nowMs : Nat) :
    String :=
  let parentText := match parent with
    | some p => s!"Some(\"{p}\")"
    | none => "None"
  s!"{doc}{tool}{docHash}{parentText}{nowMs}"

variable (H) in
/-- The id made of a text. -/
@[grind =]
def idOf (text : String) : CommitId :=
  "c" ++ ((H.blake3 (utf8 text)).take 12).toString

variable (H) in
/-- The text an operation's commit hashes, if it makes one. -/
@[grind =]
def textOf (dag : Dag) : Op → Option String
  | .commit e idNow _ => some (idText e.doc e.tool (H.blake3 e.bytes) (dag.head e.doc) idNow)
  | _ => none

variable (H) in
/-- The texts the commits of a sequence hash, in their order. -/
@[grind =]
def textsOf : Dag → List Op → List String
  | _, [] => []
  | dag, op :: ops => (dag.textOf H op).toList ++ textsOf (dag.after H op) ops

variable (H) in
/-- An operation adds its commit, under an id nobody has, if it makes one, and keeps every commit
recorded with all its fields. -/
def Adds (dag : Dag) (op : Op) : Prop :=
  (∀ id c, dag.getCommit id = some c → (dag.after H op).getCommit id = some c) ∧
    match op with
    | .commit e idNow atNow =>
      dag.getCommit (dag.commit H e idNow atNow).1.id = none ∧
        (dag.after H op).all = (dag.commit H e idNow atNow).1 :: dag.all
    | _ => (dag.after H op).all = dag.all

/-- The commits recorded and the order are those of the texts hashed so far. -/
structure Records (H : Host) (dag : Dag) (texts : List String) : Prop where
  commits : ∀ id, (dag.getCommit id).isSome = true ↔ ∃ text ∈ texts, idOf H text = id
  order : ∀ id ∈ dag.order, (dag.getCommit id).isSome = true

/-- Everything but a commit leaves the commits and their order. -/
theorem after_commits (h : dag.textOf H op = none) :
    (dag.after H op).commits = dag.commits ∧ (dag.after H op).order = dag.order := by
  cases op with
  | commit e idNow atNow => cases h
  | undo doc =>
    unfold after
    dsimp only
    split
    · next r hundo =>
      unfold Dag.undo at hundo
      split at hundo
      · cases hundo
      · split at hundo
        · cases hundo
        · next head _ =>
          dsimp only at hundo
          obtain ⟨heads, hheads⟩ := dag.setHead_eq doc head.parent
          rw [hheads] at hundo
          split at hundo
          · cases hundo
            exact ⟨rfl, rfl⟩
          · split at hundo
            · cases hundo
            · cases hundo
              exact ⟨rfl, rfl⟩
    · exact ⟨rfl, rfl⟩
  | redo doc =>
    unfold after Dag.redo
    dsimp only
    split
    · exact ⟨rfl, rfl⟩
    · next id rest _ =>
      obtain ⟨heads, hheads⟩ := dag.setHead_eq doc (some id)
      rw [hheads]
      split <;> exact ⟨rfl, rfl⟩
  | dropRun run =>
    unfold after
    dsimp only
    split
    · next hdrop => exact ⟨(dropRun_spec hdrop).1, (dropRun_spec hdrop).2.2.1⟩
    · exact ⟨rfl, rfl⟩

theorem getCommit_commit_self (dag : Dag) (e : Entry) (idNow atNow : Nat) :
    (dag.commit H e idNow atNow).2.getCommit (dag.commit H e idNow atNow).1.id =
      some (dag.commit H e idNow atNow).1 :=
  AList.lookup_insert _

theorem getCommit_commit_ne (dag : Dag) (e : Entry) (idNow atNow : Nat) {id : CommitId}
    (h : id ≠ (dag.commit H e idNow atNow).1.id) :
    (dag.commit H e idNow atNow).2.getCommit id = dag.getCommit id :=
  AList.lookup_insert_ne h

theorem Records.after (hr : Records H dag texts) (op : Op) :
    Records H (dag.after H op) (texts ++ (dag.textOf H op).toList) := by
  cases htext : dag.textOf H op with
  | none =>
    obtain ⟨hc, ho⟩ := after_commits htext
    have hget : ∀ id, (dag.after H op).getCommit id = dag.getCommit id := fun id => by
      unfold getCommit
      rw [hc]
    refine ⟨fun id => ?_, fun id hid => ?_⟩
    · rw [hget]
      simpa using hr.commits id
    · rw [hget]
      exact hr.order id (ho ▸ hid)
  | some text =>
    cases op <;> simp only [textOf, reduceCtorEq, Option.some.injEq] at htext
    next e idNow atNow =>
    have hid : (dag.commit H e idNow atNow).1.id = idOf H text := by
      rw [← htext]
      rfl
    have hself : ((dag.commit H e idNow atNow).2.getCommit (idOf H text)).isSome = true := by
      rw [← hid, getCommit_commit_self]
      rfl
    have hother : ∀ id, id ≠ idOf H text →
        (dag.commit H e idNow atNow).2.getCommit id = dag.getCommit id := fun id hne =>
      getCommit_commit_ne dag e idNow atNow (hid ▸ hne)
    refine ⟨fun id => ?_, fun id hmem => ?_⟩
    · by_cases heq : id = idOf H text
      · subst heq
        exact iff_of_true hself ⟨text, by simp, rfl⟩
      · show ((dag.commit H e idNow atNow).2.getCommit id).isSome = true ↔ _
        rw [hother id heq, hr.commits id]
        constructor
        · rintro ⟨t, ht, rfl⟩
          exact ⟨t, List.mem_append_left _ ht, rfl⟩
        · rintro ⟨t, ht, rfl⟩
          refine ⟨t, (List.mem_append.1 ht).resolve_right fun h => heq ?_, rfl⟩
          rw [show t = text by simpa using h]
    · by_cases heq : id = idOf H text
      · subst heq
        exact hself
      · show ((dag.commit H e idNow atNow).2.getCommit id).isSome = true
        rw [hother id heq]
        exact hr.order id ((List.mem_cons.1 hmem).resolve_left fun h => heq (h.trans hid))

/-- What is recorded is in the order's commits, whatever else is. -/
theorem all_congr {dag' : Dag} (horder : dag'.order = dag.order)
    (hget : ∀ id ∈ dag.order, dag'.getCommit id = dag.getCommit id) : dag'.all = dag.all := by
  unfold all
  rw [horder]
  exact List.filterMap_congr hget

/-- **An operation adds, and only adds, unless it hashes a text hashed before.** -/
theorem Records.adds_iff (hr : Records H dag texts) (op : Op)
    (hinj : ∀ text ∈ dag.textOf H op, ∀ t ∈ texts, idOf H t = idOf H text → t = text) :
    dag.Adds H op ↔ ∀ text ∈ dag.textOf H op, text ∉ texts := by
  cases htext : dag.textOf H op with
  | none =>
    obtain ⟨hc, ho⟩ := after_commits htext
    have hget : ∀ id, (dag.after H op).getCommit id = dag.getCommit id := fun id => by
      unfold getCommit
      rw [hc]
    have hall := all_congr ho fun id _ => hget id
    refine iff_of_true ⟨fun id c h => (hget id).trans h, ?_⟩ (by simp)
    cases op with
    | commit e idNow atNow => cases htext
    | undo doc => exact hall
    | redo doc => exact hall
    | dropRun run => exact hall
  | some text =>
    cases op <;> simp only [textOf, reduceCtorEq, Option.some.injEq] at htext
    next e idNow atNow =>
    have hid : (dag.commit H e idNow atNow).1.id = idOf H text := by
      rw [← htext]
      rfl
    have hnew : dag.getCommit (idOf H text) = none ↔ text ∉ texts := by
      rw [← Option.isNone_iff_eq_none, ← Option.not_isSome, Bool.not_eq_true',
        ← Bool.not_eq_true, hr.commits, not_iff_not]
      constructor
      · rintro ⟨t, ht, heq⟩
        exact hinj text (by simp [textOf, htext]) t ht heq ▸ ht
      · exact fun h => ⟨text, h, rfl⟩
    simp only [Option.mem_def, Option.some.injEq, forall_eq']
    rw [← hnew]
    refine ⟨fun h => hid ▸ h.2.1, fun h => ⟨fun id c hc => ?_, hid ▸ h, ?_⟩⟩
    · refine (getCommit_commit_ne dag e idNow atNow fun heq => ?_).trans hc
      rw [show id = idOf H text from heq.trans hid, h] at hc
      cases hc
    · show ((dag.commit H e idNow atNow).1.id :: dag.order).filterMap
        (dag.commit H e idNow atNow).2.getCommit = _
      rw [List.filterMap_cons_some (getCommit_commit_self dag e idNow atNow)]
      refine congrArg _ (List.filterMap_congr fun id hmem =>
        getCommit_commit_ne dag e idNow atNow fun heq => ?_)
      have := hr.order id hmem
      rw [show id = idOf H text from heq.trans hid, h] at this
      cases this

/-! ### Sequences of operations -/

theorem Records.empty : Records H .empty [] :=
  ⟨fun id => by simp [getCommit, Dag.empty], by simp [Dag.empty]⟩

/-- The texts of a sequence and of what follows it. -/
theorem textsOf_append (dag : Dag) (ops ops' : List Op) : dag.textsOf H (ops ++ ops') =
    dag.textsOf H ops ++ ((operations H).run dag ops).textsOf H ops' := by
  induction ops generalizing dag with
  | nil => rfl
  | cons op ops ih =>
    rw [List.cons_append, textsOf, textsOf, ih, List.append_assoc]
    rfl

/-- Along a sequence of operations the texts hashed so far are recorded. -/
theorem records_run (ops : List Op) :
    Records H ((operations H).run .empty ops) (Dag.empty.textsOf H ops) := by
  induction ops using List.reverseRecOn with
  | nil => exact .empty
  | append_singleton ops op ih =>
    rw [textsOf_append, System.run, List.foldl_append]
    have := ih.after op
    simpa [textsOf, operations, System.run] using this

variable (H) in
/-- Every operation of a sequence, from an empty DAG, adds its commit if it makes one and keeps
every commit recorded before it. -/
def AppendOnly (ops : List Op) : Prop :=
  ∀ before op after, ops = before ++ op :: after →
    ((operations H).run .empty before).Adds H op

/-- **The history is append-only exactly where no text is hashed twice**: where the hash tells the
texts of a sequence apart, every commit of it has an id of its own, and no commit loses a field,
if and only if no two commits of it are of one document, tool, content and parent in one
millisecond. -/
theorem appendOnly_iff {ops : List Op}
    (hinj : ∀ t ∈ Dag.empty.textsOf H ops, ∀ t' ∈ Dag.empty.textsOf H ops,
      idOf H t = idOf H t' → t = t') :
    AppendOnly H ops ↔ (Dag.empty.textsOf H ops).Nodup := by
  induction ops using List.reverseRecOn with
  | nil =>
    refine iff_of_true (fun before op after h => ?_) List.nodup_nil
    simp at h
  | append_singleton ops op ih =>
    have hlast : Dag.empty.textsOf H (ops ++ [op]) = Dag.empty.textsOf H ops ++
        (((operations H).run .empty ops).textOf H op).toList := by
      rw [textsOf_append]
      simp [textsOf]
    rw [hlast] at hinj ⊢
    have hadds := (records_run (H := H) ops).adds_iff op fun text htext t ht heq =>
      hinj t (List.mem_append_left _ ht) text
        (List.mem_append_right _ (by simpa using htext)) heq
    have hbefore := ih fun t ht t' ht' =>
      hinj t (List.mem_append_left _ ht) t' (List.mem_append_left _ ht')
    have hsplit : AppendOnly H (ops ++ [op]) ↔
        AppendOnly H ops ∧ ((operations H).run .empty ops).Adds H op := by
      constructor
      · refine fun h => ⟨fun before o after heq => ?_, h ops op [] rfl⟩
        exact h before o (after ++ [op]) (by rw [heq]; simp)
      · rintro ⟨h, hop⟩ before o after heq
        rcases List.eq_nil_or_concat after with rfl | ⟨after, last, rfl⟩
        · obtain ⟨rfl, hsame⟩ := List.append_inj' heq rfl
          obtain rfl : op = o := by simpa using hsame
          exact hop
        · refine h before o after ?_
          rw [List.concat_eq_append, ← List.cons_append, ← List.append_assoc] at heq
          exact (List.append_inj' heq rfl).1
    rw [hsplit, hbefore, hadds, List.nodup_append]
    cases ((operations H).run .empty ops).textOf H op with
    | none => simp
    | some text =>
      simp only [Option.mem_def, Option.some.injEq, forall_eq', Option.toList_some,
        List.nodup_singleton, List.mem_singleton, ne_eq, true_and]
      exact and_congr_right fun _ =>
        ⟨fun h t ht _ hlast heq => h (hlast ▸ heq ▸ ht), fun h ht => h _ ht text rfl rfl⟩

/-- Two commits of one document a millisecond apart. -/
def apart : List Op :=
  [.commit ⟨"d", "notes", "t", .null, [97], "", .agent, some "r"⟩ 1 1, .undo "d",
    .commit ⟨"d", "notes", "t", .null, [97], "", .user, none⟩ 2 2]

theorem appendOnly_apart : AppendOnly Sample.spelled apart ↔
    (Dag.empty.textsOf Sample.spelled apart).Nodup :=
  appendOnly_iff (by decide +kernel)

/-- The readings of the clock a sequence is given, in their order. -/
def readings (ops : List Op) : List Nat :=
  ops.flatMap fun
    | .commit _ idNow atNow => [idNow, atNow]
    | _ => []

/-- A run's commit undone, and made again by its person within the millisecond. -/
def again : List Op :=
  [.commit ⟨"d", "notes", "t", .null, [97], "", .agent, some "r"⟩ 1 1, .undo "d",
    .commit ⟨"d", "notes", "t", .null, [97], "", .user, none⟩ 1 1]

/-- The second commit takes the place of the first, its author and its run. -/
theorem commit_replaces : ¬∀ ops, (readings ops).Pairwise (· ≤ ·) →
    (∀ t ∈ Dag.empty.textsOf Sample.spelled ops, ∀ t' ∈ Dag.empty.textsOf Sample.spelled ops,
      idOf Sample.spelled t = idOf Sample.spelled t' → t = t') →
    AppendOnly Sample.spelled ops := by
  intro h
  have hadds := h again (by decide) (by decide +kernel) (again.take 2) _ [] rfl
  exact absurd hadds.2.1 (by decide +kernel)

end Dag

end LocalSpace
