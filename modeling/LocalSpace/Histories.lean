import LocalSpace.Library.Decimal
import LocalSpace.Sample

/-!
# Whose history a caller is answered

`GetHistory` keeps what the caller may see of a window of the whole history: the newest commits,
eight times as many as were asked for and two hundred at least, whoever's they are. It answers the
newest commits the caller may see exactly where enough of them are in that window, or no more are
beyond it (`Core.historyOf_eq_iff`), and so depends on nobody else's exactly there
(`Core.own_history_iff`).
-/

namespace LocalSpace

variable {H : Host}

/-- What meets `p` in a list's first elements, up to a number of it, is what meets it in the whole
list exactly where that many do there, or no more do beyond them. -/
theorem take_filter_window {α : Type*} (p : α → Bool) (l : List α) (n window : Nat) :
    ((l.take window).filter p).take n = (l.filter p).take n ↔
      n ≤ (l.take window).countP p ∨ ∀ a ∈ l.drop window, p a = false := by
  have hsplit : l.filter p = (l.take window).filter p ++ (l.drop window).filter p := by
    rw [← List.filter_append, List.take_append_drop]
  have hnone : (l.drop window).filter p = [] ↔ ∀ a ∈ l.drop window, p a = false := by
    rw [List.filter_eq_nil_iff]
    exact forall₂_congr fun a _ => by rw [Bool.not_eq_true]
  rw [hsplit, List.take_append, List.self_eq_append_right, List.take_eq_nil_iff, hnone,
    ← List.countP_eq_length_filter, Nat.sub_eq_zero_iff_le]

namespace Core

/-- Whether the caller may see a commit. -/
def sees (c : Core H) (commit : Commit) : Bool :=
  if commit.doc = lockDoc then c.active.isAdmin else c.may commit.doc .view

/-- The commits of a history that the caller may see, newest first. -/
def seen (c : Core H) (dag : Dag) : List Commit :=
  dag.all.filter c.sees

/-- What `GetHistory` answers on a history. -/
def historyOf (c : Core H) (dag : Dag) (limit : Nat) : List Commit :=
  historyFor { c with dag := dag } limit

/-- The window of the history that an answer is taken from. The multiple saturates in a `usize`,
which no history is longer than. -/
def window (limit : Nat) : Nat :=
  max (limit * 8) 200

/-- Enough commits that the caller may see are in the window, or no more are beyond it. -/
def InWindow (c : Core H) (dag : Dag) (limit : Nat) : Prop :=
  limit ≤ (dag.all.take (window limit)).countP c.sees ∨
    ∀ commit ∈ dag.all.drop (window limit), c.sees commit = false

theorem historyOf_eq (c : Core H) (dag : Dag) (limit : Nat) :
    c.historyOf dag limit = ((dag.all.take (window limit)).filter c.sees).take limit := by
  have hone : max (window limit) 1 = window limit := by
    rw [window]
    omega
  have hhistory : dag.history (window limit) = dag.all.take (window limit) := by
    rw [Dag.history, hone, Dag.all]
  rw [← hhistory]
  rfl

/-- The answer is the newest commits the caller may see exactly where the window holds them. -/
theorem historyOf_eq_iff (c : Core H) (dag : Dag) (limit : Nat) :
    c.historyOf dag limit = (c.seen dag).take limit ↔ c.InWindow dag limit := by
  rw [historyOf_eq, seen, take_filter_window, InWindow]

/-- **One's own history**: on two histories that are the same in what the caller may see, the
answers are the same, and the newest of that, exactly where both windows hold it. -/
theorem own_history_iff (c : Core H) (dag dag' : Dag) (hsame : c.seen dag = c.seen dag')
    (limit : Nat) :
    (c.historyOf dag limit = c.historyOf dag' limit ∧
        c.historyOf dag limit = (c.seen dag).take limit) ↔
      c.InWindow dag limit ∧ c.InWindow dag' limit := by
  rw [← historyOf_eq_iff, ← historyOf_eq_iff, ← hsame]
  constructor
  · rintro ⟨hanswers, hnewest⟩
    exact ⟨hnewest, hanswers.symm.trans hnewest⟩
  · rintro ⟨hnewest, hnewest'⟩
    exact ⟨hnewest.trans hnewest'.symm, hnewest⟩

end Core

namespace Sample

/-- A history of some commits, newest first. -/
def historyWith (commits : List Commit) : Dag :=
  { Dag.empty with
    commits := commits.foldr (fun c table => table.insert c.id c) ∅
    order := commits.map Commit.id }

theorem all_historyWith {commits : List Commit} (h : (commits.map Commit.id).Nodup) :
    (historyWith commits).all = commits := by
  induction commits with
  | nil => rfl
  | cons c rest ih =>
    rw [List.map_cons, List.nodup_cons] at h
    obtain ⟨hnew, hrest⟩ := h
    have hfirst : (historyWith (c :: rest)).getCommit c.id = some c := AList.lookup_insert _
    have hothers : ∀ id ∈ rest.map Commit.id,
        (historyWith (c :: rest)).getCommit id = (historyWith rest).getCommit id := by
      intro id hid
      exact AList.lookup_insert_ne fun heq => hnew (heq ▸ hid)
    have hall : (historyWith (c :: rest)).all =
        c :: (rest.map Commit.id).filterMap (historyWith (c :: rest)).getCommit :=
      List.filterMap_cons_some hfirst
    rw [hall, List.filterMap_congr hothers]
    exact congrArg (c :: ·) (ih hrest)

/-- A commit on a document. -/
def commitOn (doc : DocId) (id : CommitId) : Commit :=
  ⟨id, none, doc, "notes", "notes.set", .null, "", "", .user, 0, none⟩

/-- My own computer, where there is one document of mine and one of Ben's. -/
def room : Core Sample.host :=
  let c := Core.start Sample.computer []
  let shared := c.access.addWorkspace (.personal "ben")
  let theirs := shared.addDocument "theirs" (Workspace.personalId "ben") "Theirs" none
  { c with access := theirs.addDocument "mine" (Workspace.personalId "me") "Mine" none }

@[grind =]
def mine : Commit :=
  commitOn "mine" "c"

/-- Ben's commits, so many of them. -/
def theirs (n : Nat) : List Commit :=
  (List.range n).map fun i => commitOn "theirs" (toString i)

theorem all_theirs (n : Nat) : (historyWith (theirs n ++ [mine])).all = theirs n ++ [mine] := by
  refine all_historyWith ?_
  have hids : (theirs n).map Commit.id = (List.range n).map toString := by
    rw [theirs, List.map_map]
    rfl
  rw [List.map_append, hids, List.nodup_append']
  refine ⟨List.nodup_range.map Library.Decimal.toString_injective, List.nodup_singleton _, ?_⟩
  intro id hid hmine
  obtain ⟨i, _, rfl⟩ := List.mem_map.mp hid
  have hc : (toString i).toList = ['c'] := by
    rw [List.mem_singleton.mp hmine]
    rfl
  have hdigit := Library.Decimal.isDigit_of_mem (n := i) (c := 'c') (by rw [hc]; simp)
  exact absurd hdigit (by decide)

theorem sees_mine : room.sees mine = true := by
  decide +kernel

theorem filter_theirs (n : Nat) : (theirs n).filter room.sees = [] := by
  have hunseen : room.may "theirs" .view = false := by decide +kernel
  refine List.filter_eq_nil_iff.mpr fun commit hcommit => ?_
  obtain ⟨i, _, rfl⟩ := List.mem_map.mp hcommit
  have hdoc : "theirs" ≠ lockDoc := by decide
  have hsees : room.sees (commitOn "theirs" (toString i)) = room.may "theirs" .view :=
    if_neg hdoc
  rw [hsees, hunseen]
  exact Bool.false_ne_true

theorem seen_theirs (n : Nat) : room.seen (historyWith (theirs n ++ [mine])) = [mine] := by
  rw [Core.seen, all_theirs, List.filter_append, filter_theirs, List.nil_append,
    List.filter_cons_of_pos sees_mine]
  rfl

/-- Ten commits of Ben's after mine. -/
theorem own_history_iff_ten :
    room.seen (historyWith (theirs 10 ++ [mine])) = room.seen (historyWith (theirs 0 ++ [mine])) ∧
    ((room.historyOf (historyWith (theirs 10 ++ [mine])) 1 =
          room.historyOf (historyWith (theirs 0 ++ [mine])) 1 ∧
        room.historyOf (historyWith (theirs 10 ++ [mine])) 1 =
          (room.seen (historyWith (theirs 10 ++ [mine]))).take 1) ↔
      room.InWindow (historyWith (theirs 10 ++ [mine])) 1 ∧
        room.InWindow (historyWith (theirs 0 ++ [mine])) 1) :=
  have hsame := (seen_theirs 10).trans (seen_theirs 0).symm
  ⟨hsame, Core.own_history_iff room _ _ hsame 1⟩

/-- Two hundred of them: mine is no longer answered. -/
theorem crowded_out :
    room.seen (historyWith (theirs 200 ++ [mine])) = room.seen (historyWith (theirs 0 ++ [mine])) ∧
      room.historyOf (historyWith (theirs 200 ++ [mine])) 1 = [] ∧
      room.historyOf (historyWith (theirs 0 ++ [mine])) 1 = [mine] := by
  have hlength : (theirs 200).length = Core.window 1 := by
    rw [theirs, List.length_map, List.length_range]
    rfl
  refine ⟨(seen_theirs 200).trans (seen_theirs 0).symm, ?_, ?_⟩
  · rw [Core.historyOf_eq, all_theirs, List.take_append_of_le_length hlength.ge,
      List.take_of_length_le hlength.le, filter_theirs]
    rfl
  · have hwithin : room.InWindow (historyWith (theirs 0 ++ [mine])) 1 := by
      refine .inr ?_
      rw [all_theirs, List.drop_of_length_le (by decide)]
      exact nofun
    rw [(Core.historyOf_eq_iff _ _ _).mpr hwithin, seen_theirs]
    rfl

end Sample

end LocalSpace
