import Mathlib.Data.Finset.Basic
import Mathlib.Data.Finset.SDiff
import Mathlib.Logic.Function.Basic
import LocalSpace.Library.Runs

/-!
# What is undone

One harness's document, as Core has it in memory, as its history keeps it and as its replicas hold
it. An Automerge document is a set of changes, merged by union, whose content is a function of that
set (`read`). A revert of a document that has changes is one more change; the history's head moves
back to a snapshot that has neither the undone change nor the revert, and a restart loads that
snapshot.

Where every change made has reached Core before an undo, and a restart comes only when the head's
snapshot has all that the document has, what is undone stays undone (`undone_stays`).
-/

namespace LocalSpace

namespace Reverts

open Library

/-! ### The history -/

section History

variable (Change : Type)

structure Commit where
  parent : Option Nat
  snapshot : Finset Change
  run : Option String

/-- The document's commits in their order, each under its number; its head; and what was undone and
may be redone, the last one first. -/
structure History where
  commits : List (Commit Change)
  head : Option Nat
  redo : List Nat

/-- What takes a document back, or forth again. -/
inductive Revert where
  | undo
  | redo
  | dropRun (run : String)

end History

namespace History

variable {Change : Type} (h : History Change)

def snapshotAt (id : Option Nat) : Option (Finset Change) :=
  id.bind fun id => (h.commits[id]?).map Commit.snapshot

/-- The snapshot of the head; the empty document where there is none. -/
@[grind =]
def recorded : Finset Change :=
  (h.snapshotAt h.head).getD ∅

@[grind =]
def commit (snapshot : Finset Change) (run : Option String) : History Change where
  commits := h.commits ++ [⟨h.head, snapshot, run⟩]
  head := some h.commits.length
  redo := []

/-- The history after a revert; its head's snapshot is what the document is taken to. -/
def revert : Revert → Option (History Change)
  | .undo =>
    h.head.bind fun id => (h.commits[id]?).map fun c =>
      { h with head := c.parent, redo := id :: h.redo }
  | .redo =>
    match h.redo with
    | [] => none
    | id :: rest => some { h with head := some id, redo := rest }
  | .dropRun run =>
    -- the oldest commit of the run, by its place in the order
    (h.commits.find? fun c => c.run = some run).map fun first =>
      { h with head := first.parent, redo := [] }

end History

/-! ### Core and the replicas -/

/-- One document: in Core's memory, none until it is brought in; its history; its replicas, and the
messages on their way. -/
structure State (Change : Type) where
  live : Option (Finset Change)
  history : History Change
  replicas : String → Option (Finset Change)
  toCore : List (String × Finset Change)
  toReplica : List (String × Finset Change)
  /-- Every change made so far, by anyone. -/
  made : Finset Change

/-- What happens, in any order. A write is a tool's or a surface's, committed or not; a revert is
given the change it makes where it makes one; a message carries some of what its sender holds. -/
inductive Act (Change : Type) where
  | write (change : Change) (commit : Bool) (run : Option String)
  | revert (how : Revert) (change : Change)
  | restart
  | opened (replica : String)
  | closed (replica : String)
  | draw (replica : String) (change : Change)
  | send (replica : String) (message : Finset Change)
  | sync (i : Nat)
  | tell (replica : String) (message : Finset Change)
  | hear (i : Nat)
  | disconnected (replica : String)

namespace State

variable {Change Value : Type} [DecidableEq Change] [DecidableEq Value]
  (read : Finset Change → Value) (s : State Change)

@[grind =]
def start : State Change where
  live := none
  history := ⟨[], none, []⟩
  replicas _ := none
  toCore := []
  toReplica := []
  made := ∅

/-- `Core::doc_for`: the document in memory; where it is not, as its head's snapshot has it. -/
@[grind =]
def loaded : Finset Change :=
  s.live.getD s.history.recorded

/-- The document's JSON. -/
@[grind =]
def json : Option Value :=
  s.live.map read

/-- `DocStore::restore`, to what the head records. -/
@[grind =]
def restore (change : Change) : State Change :=
  match s.live with
  | none => { s with live := some s.history.recorded }
  | some changes =>
    if changes = ∅ then { s with live := some s.history.recorded }
    else if read changes = read s.history.recorded then s
    else { s with live := some (insert change changes), made := insert change s.made }

@[grind =]
def step : Act Change → State Change
  | .write change commit run =>
    { s with
      live := some (insert change s.loaded)
      history := if commit then s.history.commit (insert change s.loaded) run else s.history
      made := insert change s.made }
  | .revert how change =>
    match s.history.revert how with
    | none => s
    | some h => restore read { s with history := h } change
  | .restart => { s with live := none, toCore := [], toReplica := [] }
  | .opened replica =>
    { s with
      live := some s.loaded
      replicas := Function.update s.replicas replica (some s.loaded) }
  | .closed replica => { s with replicas := Function.update s.replicas replica none }
  | .draw replica change =>
    { s with
      replicas := Function.update s.replicas replica ((s.replicas replica).map (insert change))
      made := insert change s.made }
  | .send replica message => { s with toCore := s.toCore ++ [(replica, message)] }
  | .sync i =>
    match s.toCore[i]?, s.live with
    | some (_, message), some changes =>
      if message ⊆ changes then { s with toCore := s.toCore.eraseIdx i }
      else { s with
        live := some (changes ∪ message)
        history := s.history.commit (changes ∪ message) none
        toCore := s.toCore.eraseIdx i }
    | _, _ => { s with toCore := s.toCore.eraseIdx i }
  | .tell replica message => { s with toReplica := s.toReplica ++ [(replica, message)] }
  | .hear i =>
    match s.toReplica[i]? with
    | some (replica, message) =>
      { s with
        replicas := Function.update s.replicas replica
          ((s.replicas replica).map fun held => held ∪ message)
        toReplica := s.toReplica.eraseIdx i }
    | none => s
  | .disconnected replica =>
    { s with
      toCore := s.toCore.filter fun m => m.1 ≠ replica
      toReplica := s.toReplica.filter fun m => m.1 ≠ replica }

/-- A revert's change, where it makes one, is new and takes the content to what the head records. -/
def TakesBack (change : Change) : Prop :=
  ∀ changes ∈ s.live, changes ≠ ∅ → read changes ≠ read s.history.recorded →
    change ∉ s.made ∧ read (insert change changes) = read s.history.recorded

/-- What may come: a change is made once, and a message carries what its sender holds. -/
def Enabled : Act Change → Prop
  | .write change _ _ => change ∉ s.made
  | .revert how change => ∀ h ∈ s.history.revert how, TakesBack read { s with history := h } change
  | .draw replica change => (s.replicas replica).isSome = true ∧ change ∉ s.made
  | .send replica message => ∃ held ∈ s.replicas replica, message ⊆ held
  | .tell _ message => ∃ changes ∈ s.live, message ⊆ changes
  | _ => True

instance : DecidablePred (s.TakesBack read) := fun _ =>
  inferInstanceAs (Decidable (∀ changes ∈ s.live, _))

instance : DecidablePred (s.Enabled read)
  | .write .. => inferInstanceAs (Decidable (_ ∉ _))
  | .revert .. => inferInstanceAs (Decidable (∀ h ∈ s.history.revert _, _))
  | .draw .. => inferInstanceAs (Decidable (_ ∧ _))
  | .send .. => inferInstanceAs (Decidable (∃ held ∈ s.replicas _, _))
  | .tell .. => inferInstanceAs (Decidable (∃ changes ∈ s.live, _))
  | .restart => .isTrue trivial
  | .opened _ => .isTrue trivial
  | .closed _ => .isTrue trivial
  | .sync _ => .isTrue trivial
  | .hear _ => .isTrue trivial
  | .disconnected _ => .isTrue trivial

end State

/-- Core with its replicas. -/
@[grind =]
def system {Change Value : Type} [DecidableEq Change] [DecidableEq Value]
    (read : Finset Change → Value) : System (State Change) (Act Change) where
  step := State.step read
  enabled := State.Enabled read

instance {Change Value : Type} [DecidableEq Change] [DecidableEq Value]
    (read : Finset Change → Value) (s : State Change) (a : Act Change) :
    Decidable ((system read).enabled s a) :=
  inferInstanceAs (Decidable (s.Enabled read a))

/-! ### What stays undone -/

section Stays

variable {Change Value : Type} [DecidableEq Change] [DecidableEq Value]
  {read : Finset Change → Value} {s s₁ t : State Change} {a : Act Change}

/-- The changes an undo takes out: those the head recorded before it and not after. -/
def undone (s s₁ : State Change) : Finset Change :=
  s.history.recorded \ s₁.history.recorded

/-- What an undo puts into the document. -/
def putBack (s s₁ : State Change) : Finset Change :=
  s₁.loaded \ s.loaded

/-- What was undone between two states stays undone in a third: a message of changes made before
alters nothing, and neither the document, in memory or as a restart would load it, nor a snapshot
taken since has a change that was undone and not what undid it. -/
structure StaysUndone (read : Finset Change → Value) (s s₁ t : State Change) : Prop where
  sync : ∀ i replica message, t.toCore[i]? = some (replica, message) → message ⊆ s.made →
    (t.step read (.sync i)).json read = t.json read
  live : ∀ change ∈ undone s s₁, change ∈ t.loaded → putBack s s₁ ⊆ t.loaded
  snapshots : ∀ c ∈ t.history.commits.drop s₁.history.commits.length,
    ∀ change ∈ undone s s₁, change ∈ c.snapshot → putBack s s₁ ⊆ c.snapshot

/-- What a step must meet: an undo comes when every change made has reached the document in Core's
memory; a redo when the document is in memory; a restart when the head's snapshot has all that the
document has. -/
def Meets (s : State Change) : Act Change → Prop
  | .revert .redo _ => s.live.isSome = true
  | .revert _ _ => ∃ changes ∈ s.live, s.made ⊆ changes
  | .restart => ∀ changes ∈ s.live, changes ⊆ s.history.recorded
  | _ => True

instance : DecidablePred (Meets s)
  | .revert .redo _ => inferInstanceAs (Decidable (_ = true))
  | .revert .undo _ => inferInstanceAs (Decidable (∃ changes ∈ s.live, _))
  | .revert (.dropRun _) _ => inferInstanceAs (Decidable (∃ changes ∈ s.live, _))
  | .restart => inferInstanceAs (Decidable (∀ changes ∈ s.live, _))
  | .write .. => .isTrue trivial
  | .opened _ => .isTrue trivial
  | .closed _ => .isTrue trivial
  | .draw .. => .isTrue trivial
  | .send .. => .isTrue trivial
  | .sync _ => .isTrue trivial
  | .tell .. => .isTrue trivial
  | .hear _ => .isTrue trivial
  | .disconnected _ => .isTrue trivial

/-- The document loses nothing. -/
theorem loaded_step (hmeets : Meets s a) : s.loaded ⊆ (s.step read a).loaded := by
  cases a with
  | write change commit run => exact Finset.subset_insert _ _
  | revert how change =>
    have hlive : ∃ changes, s.live = some changes := by
      cases how with
      | redo => exact Option.isSome_iff_exists.mp hmeets
      | undo =>
        obtain ⟨changes, hsome, -⟩ := hmeets
        exact ⟨changes, hsome⟩
      | dropRun run =>
        obtain ⟨changes, hsome, -⟩ := hmeets
        exact ⟨changes, hsome⟩
    obtain ⟨changes, hsome⟩ := hlive
    have hbefore : s.loaded = changes := by rw [State.loaded, hsome, Option.getD_some]
    simp only [State.step]
    split
    · exact Finset.Subset.refl _
    · rw [hbefore]
      simp only [State.restore, hsome]
      split
      · next hempty =>
        rw [hempty]
        exact Finset.empty_subset _
      · split
        · simp only [State.loaded, Option.getD_some, Finset.Subset.refl]
        · exact Finset.subset_insert _ _
  | restart =>
    cases hsome : s.live with
    | none =>
      simp only [State.loaded, State.step, hsome, Option.getD_none, Finset.Subset.refl]
    | some changes =>
      simp only [State.loaded, State.step, hsome, Option.getD_none, Option.getD_some]
      exact hmeets changes hsome
  | opened replica => exact Finset.Subset.refl _
  | sync i =>
    simp only [State.step]
    split
    · next message changes _ hsome =>
      have hbefore : s.loaded = changes := by rw [State.loaded, hsome, Option.getD_some]
      split
      · exact Finset.Subset.refl _
      · rw [hbefore]
        exact Finset.subset_union_left
    · exact Finset.Subset.refl _
  | hear i =>
    simp only [State.step]
    split
    · exact Finset.Subset.refl _
    · exact Finset.Subset.refl _
  | _ => exact Finset.Subset.refl _

/-- The history only gets longer, by what the document is after the step. -/
theorem commits_step : ∃ new, (s.step read a).history.commits = s.history.commits ++ new ∧
    ∀ c ∈ new, c.snapshot = (s.step read a).loaded := by
  have hsame : ∀ {t : State Change}, t.history.commits = s.history.commits →
      ∃ new, t.history.commits = s.history.commits ++ new ∧ ∀ c ∈ new, c.snapshot = t.loaded :=
    fun h => ⟨[], by rw [h, List.append_nil], nofun⟩
  have hone : ∀ {t : State Change} {snapshot : Finset Change} {run : Option String},
      t.history.commits = s.history.commits ++ [⟨s.history.head, snapshot, run⟩] →
      t.loaded = snapshot →
      ∃ new, t.history.commits = s.history.commits ++ new ∧ ∀ c ∈ new, c.snapshot = t.loaded := by
    intro t snapshot run h hloaded
    refine ⟨_, h, fun c hc => ?_⟩
    rw [List.mem_singleton.mp hc, hloaded]
  cases a with
  | write change commit run =>
    cases commit with
    | true => exact hone rfl rfl
    | false => exact hsame rfl
  | revert how change =>
    simp only [State.step]
    split
    · exact hsame rfl
    · next h heq =>
      have hcommits : h.commits = s.history.commits := by
        cases how with
        | undo =>
          obtain ⟨id, -, hid⟩ := Option.bind_eq_some_iff.mp heq
          obtain ⟨c, -, rfl⟩ := Option.map_eq_some_iff.mp hid
          rfl
        | redo =>
          simp only [History.revert] at heq
          split at heq
          · cases heq
          · cases heq
            rfl
        | dropRun run =>
          obtain ⟨c, -, rfl⟩ := Option.map_eq_some_iff.mp heq
          rfl
      simp only [State.restore]
      split
      · exact hsame hcommits
      · split
        · exact hsame hcommits
        · split
          · exact hsame hcommits
          · exact hsame hcommits
  | sync i =>
    simp only [State.step]
    split
    · split
      · exact hsame rfl
      · exact hone rfl rfl
    · exact hsame rfl
  | hear i =>
    simp only [State.step]
    split
    · exact hsame rfl
    · exact hsame rfl
  | _ => exact hsame rfl

/-- What holds from an undo on: the document keeps all it had right after it, and so does every
snapshot taken since. -/
structure Keeps (s₁ t : State Change) : Prop where
  loaded : s₁.loaded ⊆ t.loaded
  length : s₁.history.commits.length ≤ t.history.commits.length
  snapshots : ∀ c ∈ t.history.commits.drop s₁.history.commits.length, s₁.loaded ⊆ c.snapshot

omit [DecidableEq Change] in
theorem Keeps.refl (s₁ : State Change) : Keeps s₁ s₁ := by
  refine ⟨Finset.Subset.refl _, le_rfl, ?_⟩
  rw [List.drop_length]
  exact nofun

theorem Keeps.step (h : Keeps s₁ t) (hmeets : Meets t a) : Keeps s₁ (t.step read a) := by
  have hstep : t.loaded ⊆ (t.step read a).loaded := loaded_step hmeets
  have hmore := h.loaded.trans hstep
  obtain ⟨new, hnew, hsnapshots⟩ : ∃ new, (t.step read a).history.commits =
      t.history.commits ++ new ∧ ∀ c ∈ new, c.snapshot = (t.step read a).loaded := commits_step
  refine ⟨hmore, ?_, fun c hc => ?_⟩
  · rw [hnew, List.length_append]
    exact h.length.trans (Nat.le_add_right _ _)
  · rw [hnew, List.drop_append_of_le_length h.length] at hc
    obtain hc | hc := List.mem_append.mp hc
    · exact h.snapshots c hc
    · rw [hsnapshots c hc]
      exact hmore

/-- **What is undone stays undone**: whatever comes after an undo or the dropping of a run that meets
its condition, in any order, as long as each step meets its own. -/
theorem undone_stays {how : Revert} {change : Change} (hhow : how ≠ .redo)
    (hmeets : Meets s (.revert how change))
    (hafter : (system read).Runs Meets (s.step read (.revert how change)) t) :
    StaysUndone read s (s.step read (.revert how change)) t := by
  have hkeeps := hafter.invariant (Keeps.refl _) fun _ _ hkeeps _ hmeets => hkeeps.step hmeets
  have hmade : s.made ⊆ s.loaded := by
    have hlive : ∃ changes ∈ s.live, s.made ⊆ changes := by
      cases how with
      | redo => exact absurd rfl hhow
      | undo => exact hmeets
      | dropRun run => exact hmeets
    obtain ⟨changes, hsome, hsub⟩ := hlive
    rw [State.loaded, Option.mem_def.mp hsome, Option.getD_some]
    exact hsub
  have hput : putBack s (s.step read (.revert how change)) ⊆
      (s.step read (.revert how change)).loaded := Finset.sdiff_subset
  refine ⟨fun i replica message hi hold => ?_, fun _ _ _ => hput.trans hkeeps.loaded,
    fun c hc _ _ _ => hput.trans (hkeeps.snapshots c hc)⟩
  have hhad : message ⊆ t.loaded :=
    ((hold.trans hmade).trans (loaded_step hmeets)).trans hkeeps.loaded
  simp only [State.step, hi]
  split
  · next m changes heq hsome =>
    cases heq
    rw [State.loaded, hsome, Option.getD_some] at hhad
    rw [if_pos hhad]
    rfl
  · rfl

end Stays

/-! ### A change that comes back -/

/-- A document on which change 1 draws something and change 2 takes it away again. -/
def drawn (changes : Finset Nat) : Bool :=
  1 ∈ changes ∧ 2 ∉ changes

/-- A tool draws, and a replica has it; then its connection is lost. -/
def drawing : List (Act Nat) :=
  [.opened "ana", .write 1 true none, .tell "ana" {1}, .hear 0, .disconnected "ana"]

/-- Core starts again, another replica opens the board, and the first one comes back. -/
def returning : List (Act Nat) :=
  [.restart, .opened "ben", .send "ana" {1}]

/-- Where Core does not start again, the replica's message brings nothing back. -/
theorem undone_stays_drawn :
    let s := (system drawn).run .start drawing
    let s₁ := s.step drawn (.revert .undo 2)
    StaysUndone drawn s s₁ ((system drawn).run s₁ [.opened "ben", .send "ana" {1}]) := by
  have hmeets : Meets ((system drawn).run .start drawing) (.revert .undo 2) := by decide
  exact undone_stays nofun hmeets (System.runs_of_list (by decide))

/-- Where it does, the change comes back with it: the head records no change at all. -/
theorem undone_returns :
    let s := (system drawn).run .start drawing
    let s₁ := s.step drawn (.revert .undo 2)
    let t := (system drawn).run s₁ returning
    (system drawn).Runs (fun _ _ => True) .start s ∧ (system drawn).enabled s (.revert .undo 2) ∧
      (system drawn).Runs (fun _ _ => True) s₁ t ∧ s₁.json drawn = some false ∧
      t.json drawn = some false ∧ (t.step drawn (.sync 0)).json drawn = some true ∧
      ¬StaysUndone drawn s s₁ t := by
  have hbefore : ((system drawn).run (((system drawn).run .start drawing).step drawn
      (.revert .undo 2)) returning).json drawn = some false := by decide
  have hafter : (((system drawn).run (((system drawn).run .start drawing).step drawn
      (.revert .undo 2)) returning).step drawn (.sync 0)).json drawn = some true := by
    decide
  refine ⟨System.runs_of_list (by decide), by decide,
    System.runs_of_list (by decide), by decide, hbefore, hafter, fun hstays => ?_⟩
  have hsame := hstays.sync 0 "ana" {1} (by decide) (by decide)
  rw [hbefore, hafter] at hsame
  exact absurd hsame (by decide)

end Reverts

end LocalSpace
