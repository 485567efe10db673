import LocalSpace.Proto
import Mathlib.Data.Finset.Dedup
import Mathlib.Data.Finset.Insert
import Mathlib.Data.List.Sort
import Mathlib.Data.Set.Insert

/-!
# Who has which board open

`presence.rs`: one table of windows, each with the board it announced last, since when, and when it
was last heard of. Windows that fell silent are forgotten at each announcement and each sweep. The
table is a hash map, so what is read of it is read in some order of its entries: users who arrived
at one instant are listed in no particular order, and may change places with nobody told.
-/

namespace LocalSpace.Presence

structure Place where
  workspace : String
  board : String
  deriving DecidableEq

structure Entry where
  user : String
  place : Place
  /-- When this window first announced this board. -/
  since : ℕ
  /-- When it last announced: `at`. -/
  heard : ℕ
  deriving DecidableEq

/-- Every window on a board, by the window's own name. -/
abbrev Table := List (String × Entry)

def Entry.alive (ttl now : ℕ) (e : Entry) : Bool :=
  now - e.heard ≤ ttl

namespace Table

def sweep (t : Table) (now ttl : ℕ) : Table × Finset Place :=
  (t.filter fun w => w.2.alive ttl now,
    ((t.filter fun w => !w.2.alive ttl now).map fun w => w.2.place).toFinset)

def announce (t : Table) (peer user workspace : String) (board : Option String) (now ttl : ℕ) :
    Table × Finset Place :=
  let (swept, changed) := t.sweep now ttl
  let previous := swept.lookup peer
  let rest := swept.filter fun w => w.1 ≠ peer
  match board with
  | none =>
    (rest, match previous with
      | some old => insert old.place changed
      | none => changed)
  | some board =>
    let place : Place := ⟨workspace, board⟩
    let (since, changed) := match previous with
      | some old =>
        if old.place = place ∧ old.user = user then (old.since, changed)
        else (now, insert old.place changed)
      | none => (now, changed)
    -- a window announcing the same board again is a heartbeat
    let same := previous.any fun old => old.place = place ∧ old.user = user
    ((peer, ⟨user, place, since, now⟩) :: rest, if same then changed else insert place changed)

/-- What the entries of a table may be read as. -/
def Reads (t : Table) (entries : List Entry) : Prop :=
  entries.Perm (t.map Prod.snd)

end Table

/-- The users of some entries, each once, as they come. -/
@[grind =]
def usersOf (entries : List Entry) : List String :=
  entries.foldl (fun out e => if out.contains e.user then out else out ++ [e.user]) []

/-- The users at a place, the entries read in one order. -/
def usersAt (entries : List Entry) (place : Place) : List String :=
  usersOf ((entries.filter fun e => e.place = place).insertionSort fun a b => a.since ≤ b.since)

inductive Event where
  | announce (peer user workspace : String) (board : Option String) (now : ℕ)
  | sweep (now : ℕ)

def Event.now : Event → ℕ
  | announce _ _ _ _ now => now
  | sweep now => now

section Runs

variable (ttl : ℕ)

@[grind =]
def step (t : Table) : Event → Table × Finset Place
  | .announce peer user workspace board now => t.announce peer user workspace board now ttl
  | .sweep now => t.sweep now ttl

/-- The table after some events, the newest first. -/
@[grind =]
def run : List Event → Table
  | [] => []
  | event :: earlier => (step ttl (run earlier) event).1

/-! ### What a window said -/

/-- What a window announced last, and since when it has done so without falling silent. -/
def stay (peer : String) : List Event → Option Entry
  | [] => none
  | .sweep _ :: earlier => stay peer earlier
  | .announce window user workspace board now :: earlier =>
    if window = peer then
      board.map fun board =>
        let before := (stay peer earlier).filter fun old =>
          old.alive ttl now && (old.place = ⟨workspace, board⟩ ∧ old.user = user)
        ⟨user, ⟨workspace, board⟩, before.elim now Entry.since, now⟩
    else stay peer earlier

/-- Who is at a place, and since when: the windows that last announced it, within the
time-to-live. -/
def here (history : List Event) (now : ℕ) (place : Place) : Set (String × ℕ) :=
  {a | ∃ peer w, stay ttl peer history = some w ∧ now ≤ w.heard + ttl ∧ w.place = place ∧
    (w.user, w.since) = a}

end Runs

/-- Who a table has at a place, and since when. -/
def Table.company (t : Table) (place : Place) : Set (String × ℕ) :=
  {a | ∃ w ∈ t, w.2.place = place ∧ (w.2.user, w.2.since) = a}

/-- One user came to a place no later than another did. -/
def NoLater (company : Set (String × ℕ)) (user other : String) : Prop :=
  ∃ since, (user, since) ∈ company ∧ ∀ later, (other, later) ∈ company → since ≤ later

/-! ### The users of a place -/

theorem usersOf_concat (entries : List Entry) (e : Entry) :
    usersOf (entries ++ [e]) =
      if e.user ∈ usersOf entries then usersOf entries else usersOf entries ++ [e.user] := by
  simp [usersOf, List.foldl_append]

theorem mem_usersOf {entries : List Entry} {user : String} :
    user ∈ usersOf entries ↔ ∃ e ∈ entries, e.user = user := by
  induction entries using List.reverseRecOn with
  | nil => simp [usersOf]
  | append_singleton entries e ih =>
    rw [usersOf_concat]
    split_ifs with he
    · rw [ih]
      constructor
      · rintro ⟨e', he', huser⟩
        exact ⟨e', List.mem_append_left _ he', huser⟩
      · rintro ⟨e', he', rfl⟩
        rcases List.mem_append.mp he' with he' | he'
        · exact ⟨e', he', rfl⟩
        · rw [← List.mem_singleton.mp he'] at he
          exact ih.mp he
    · simp only [List.mem_append, List.mem_singleton, ih]
      constructor
      · rintro (⟨e', he', huser⟩ | rfl)
        · exact ⟨e', Or.inl he', huser⟩
        · exact ⟨e, Or.inr rfl, rfl⟩
      · rintro ⟨e', he' | rfl, huser⟩
        · exact Or.inl ⟨e', he', huser⟩
        · exact Or.inr huser.symm

theorem usersOf_nodup (entries : List Entry) : (usersOf entries).Nodup := by
  induction entries using List.reverseRecOn with
  | nil => simp [usersOf]
  | append_singleton entries e ih =>
    rw [usersOf_concat]
    split_ifs with he
    · exact ih
    · rw [List.nodup_append]
      refine ⟨ih, List.nodup_singleton _, fun user huser other hother heq => he ?_⟩
      rw [List.mem_singleton.mp hother] at heq
      rwa [← heq]

/-- Who entries have, and since when. -/
def stays (entries : List Entry) : Set (String × ℕ) :=
  {a | ∃ e ∈ entries, (e.user, e.since) = a}

/-- Of entries in order of arrival, the users come in that order. -/
theorem usersOf_ordered {entries : List Entry}
    (hsorted : entries.Pairwise fun a b => a.since ≤ b.since) :
    (usersOf entries).Pairwise (NoLater (stays entries)) := by
  induction entries using List.reverseRecOn with
  | nil => simp [usersOf]
  | append_singleton entries e ih =>
    obtain ⟨hentries, -, hbefore⟩ := List.pairwise_append.mp hsorted
    have hlast : ∀ e' ∈ entries, e'.since ≤ e.since := fun e' he' =>
      hbefore e' he' e (List.mem_singleton_self e)
    -- a user who came no later than another still did, with the last entry counted
    have hgrown : ∀ user other, NoLater (stays entries) user other →
        NoLater (stays (entries ++ [e])) user other := by
      rintro user other ⟨since, ⟨e', he', hsince⟩, hleast⟩
      refine ⟨since, ⟨e', List.mem_append_left _ he', hsince⟩, ?_⟩
      rintro later ⟨e'', he'', hlater⟩
      rcases List.mem_append.mp he'' with he'' | he''
      · exact hleast later ⟨e'', he'', hlater⟩
      · rw [List.mem_singleton.mp he''] at hlater
        rw [← (Prod.mk.inj hlater).2, ← (Prod.mk.inj hsince).2]
        exact hlast e' he'
    rw [usersOf_concat]
    split_ifs with he
    · exact (ih hentries).imp fun h => hgrown _ _ h
    · rw [List.pairwise_append]
      refine ⟨(ih hentries).imp fun h => hgrown _ _ h, List.pairwise_singleton _ _, ?_⟩
      intro user huser other hother
      rw [List.mem_singleton.mp hother]
      obtain ⟨e', he', rfl⟩ := mem_usersOf.mp huser
      refine ⟨e'.since, ⟨e', List.mem_append_left _ he', rfl⟩, ?_⟩
      rintro later ⟨e'', he'', hlater⟩
      obtain ⟨hsame, rfl⟩ := Prod.mk.inj hlater
      rcases List.mem_append.mp he'' with he'' | he''
      · exact absurd (mem_usersOf.mpr ⟨e'', he'', hsame⟩) he
      · rw [List.mem_singleton.mp he'']
        exact hlast e' he'

section Users

variable {t : Table} {entries : List Entry} (hreads : t.Reads entries) (place : Place)

/-- The entries of a place, in order of arrival. -/
theorem mem_sorted {e : Entry} :
    e ∈ (entries.filter fun e => e.place = place).insertionSort (fun a b => a.since ≤ b.since) ↔
      e ∈ entries ∧ e.place = place := by
  rw [List.mem_insertionSort, List.mem_filter, decide_eq_true_eq]

include hreads in
theorem stays_sorted :
    stays ((entries.filter fun e => e.place = place).insertionSort
      fun a b => a.since ≤ b.since) = t.company place := by
  ext a
  constructor
  · rintro ⟨e, he, rfl⟩
    obtain ⟨he, hplace⟩ := (mem_sorted place).mp he
    obtain ⟨w, hw, rfl⟩ := List.mem_map.mp (hreads.mem_iff.mp he)
    exact ⟨w, hw, hplace, rfl⟩
  · rintro ⟨w, hw, hplace, rfl⟩
    have he : w.2 ∈ entries := hreads.mem_iff.mpr (List.mem_map_of_mem hw)
    exact ⟨w.2, (mem_sorted place).mpr ⟨he, hplace⟩, rfl⟩

include hreads in
theorem mem_usersAt {user : String} :
    user ∈ usersAt entries place ↔ ∃ since, (user, since) ∈ t.company place := by
  rw [usersAt, mem_usersOf, ← stays_sorted hreads place]
  constructor
  · rintro ⟨e, he, rfl⟩
    exact ⟨e.since, e, he, rfl⟩
  · rintro ⟨since, e, he, hsame⟩
    exact ⟨e, he, (Prod.mk.inj hsame).1⟩

include hreads in
theorem usersAt_ordered : (usersAt entries place).Pairwise (NoLater (t.company place)) := by
  have hsorted := List.pairwise_insertionSort (fun a b : Entry => a.since ≤ b.since)
    (entries.filter fun e => e.place = place)
  have hordered := usersOf_ordered hsorted
  rwa [stays_sorted hreads place] at hordered

end Users

/-! ### The table of a run -/

theorem Entry.alive_iff {ttl now : ℕ} {e : Entry} :
    e.alive ttl now = true ↔ now ≤ e.heard + ttl := by
  rw [Entry.alive, decide_eq_true_eq]
  omega

theorem Entry.alive_earlier {ttl now later : ℕ} {e : Entry} (h : now ≤ later)
    (halive : e.alive ttl later = true) : e.alive ttl now = true :=
  alive_iff.mpr (h.trans (alive_iff.mp halive))

/-- One entry to a window. -/
def Table.Single (t : Table) : Prop :=
  ∀ peer e e', (peer, e) ∈ t → (peer, e') ∈ t → e = e'

theorem Table.lookup_eq_some {t : Table} (ht : t.Single) {peer : String} {e : Entry} :
    t.lookup peer = some e ↔ (peer, e) ∈ t := by
  constructor
  · exact fun h => List.lookup_eq_some_iff.mp h |>.elim fun before h => h.elim fun after h => by
      rw [h.1]
      simp
  · intro hmem
    rcases hfound : t.lookup peer with _ | e'
    · have := List.lookup_eq_none_iff.mp hfound (peer, e) hmem
      simp at this
    · obtain ⟨before, after, heq, -⟩ := List.lookup_eq_some_iff.mp hfound
      rw [ht peer e e' hmem (by rw [heq]; simp)]

section Run

variable {ttl : ℕ}

theorem mem_sweep {t : Table} {now : ℕ} {w : String × Entry} :
    w ∈ (t.sweep now ttl).1 ↔ w ∈ t ∧ w.2.alive ttl now = true := by
  rw [Table.sweep, List.mem_filter]

/-- An announcement's table: what was swept without the window, and the window's own entry. -/
theorem announce_none (t : Table) (peer user workspace : String) (now : ℕ) :
    (t.announce peer user workspace none now ttl).1 =
      (t.sweep now ttl).1.filter fun w => w.1 ≠ peer :=
  rfl

theorem announce_some (t : Table) (peer user workspace board : String) (now : ℕ) :
    (t.announce peer user workspace (some board) now ttl).1 =
      (peer, ⟨user, ⟨workspace, board⟩,
        (((t.sweep now ttl).1.lookup peer).filter fun old =>
          old.place = ⟨workspace, board⟩ ∧ old.user = user).elim now Entry.since, now⟩) ::
        (t.sweep now ttl).1.filter fun w => w.1 ≠ peer := by
  rw [Table.announce]
  rcases hfound : (t.sweep now ttl).1.lookup peer with _ | old
  · simp [hfound]
  · by_cases hsame : old.place = ⟨workspace, board⟩ ∧ old.user = user
    · simp [hfound, hsame, Option.filter]
    · simp [hfound, hsame, Option.filter]

/-- What is in the table, of those heard of lately enough, is what the windows said. -/
theorem mem_run {history : List Event}
    (hclock : history.Pairwise fun later earlier => earlier.now ≤ later.now) {now : ℕ}
    (hnow : ∀ event ∈ history, event.now ≤ now) {peer : String} {e : Entry} :
    (peer, e) ∈ run ttl history ∧ e.alive ttl now = true ↔
      stay ttl peer history = some e ∧ e.alive ttl now = true := by
  induction history generalizing now peer e with
  | nil => simp [run, stay]
  | cons event earlier ih =>
    obtain ⟨hbefore, hearlier⟩ := List.pairwise_cons.mp hclock
    have hevent : event.now ≤ now := hnow event List.mem_cons_self
    rcases event with ⟨window, user, workspace, board, at'⟩ | at'
    · have hswept : ∀ peer e, (peer, e) ∈ ((run ttl earlier).sweep at' ttl).1 ↔
          stay ttl peer earlier = some e ∧ e.alive ttl at' = true := fun peer e => by
        rw [mem_sweep]
        exact ih hearlier hbefore
      have hsingle : Table.Single ((run ttl earlier).sweep at' ttl).1 := fun peer e e' he he' => by
        have h := ((hswept peer e).mp he).1
        rw [((hswept peer e').mp he').1, Option.some.injEq] at h
        exact h.symm
      have hlookup : ((run ttl earlier).sweep at' ttl).1.lookup window =
          (stay ttl window earlier).filter (Entry.alive ttl at') := by
        ext e
        rw [Table.lookup_eq_some hsingle, hswept, Option.filter_eq_some_iff]
      have hother : window ≠ peer → ((peer, e) ∈ ((run ttl earlier).sweep at' ttl).1 ∧
          e.alive ttl now = true ↔ stay ttl peer earlier = some e ∧ e.alive ttl now = true) := by
        intro _
        rw [hswept, and_assoc]
        exact and_congr_right fun _ =>
          and_iff_right_of_imp fun halive => Entry.alive_earlier hevent halive
      rw [run, step, stay]
      by_cases hpeer : window = peer
      · subst hpeer
        rw [if_pos rfl]
        rcases board with _ | board
        · simp [announce_none]
        · rw [announce_some, hlookup, Option.filter_filter, List.mem_cons, List.mem_filter,
            Option.map_some, Option.some.injEq]
          simp only [Prod.mk.injEq, true_and, ne_eq, not_true, decide_false, Bool.false_eq_true,
            and_false, or_false]
          rw [eq_comm]
      · rw [if_neg hpeer]
        have hpeer' : peer ≠ window := fun h => hpeer h.symm
        rcases board with _ | board
        · rw [announce_none, ← hother hpeer, List.mem_filter]
          simp [hpeer']
        · rw [announce_some, ← hother hpeer, List.mem_cons, List.mem_filter]
          simp [hpeer']
    · rw [run, step, stay, mem_sweep, and_assoc]
      have hlater : e.alive ttl at' = true ∧ e.alive ttl now = true ↔ e.alive ttl now = true :=
        and_iff_right_of_imp fun halive => Entry.alive_earlier hevent halive
      rw [hlater]
      exact ih hearlier fun event hevent => (hbefore event hevent).trans (hnow _ List.mem_cons_self)

/-- Where nothing older than the newest event is left, the table is what the windows said. -/
theorem mem_run_cons {event : Event} {earlier : List Event}
    (hclock : (event :: earlier).Pairwise fun later before => before.now ≤ later.now)
    {peer : String} {e : Entry} :
    (peer, e) ∈ run ttl (event :: earlier) ↔
      stay ttl peer (event :: earlier) = some e ∧ e.alive ttl event.now = true := by
  have hnow : ∀ other ∈ event :: earlier, other.now ≤ event.now := fun other hother => by
    rcases List.mem_cons.mp hother with rfl | hother
    · exact le_refl _
    · exact (List.pairwise_cons.mp hclock).1 other hother
  rw [← mem_run hclock hnow, iff_self_and]
  rw [run]
  rcases event with ⟨window, user, workspace, board, now⟩ | now
  · rcases board with _ | board
    · rw [step, announce_none, List.mem_filter, mem_sweep]
      exact fun h => h.1.2
    · rw [step, announce_some, List.mem_cons, List.mem_filter, mem_sweep]
      rintro (heq | h)
      · rw [(Prod.mk.inj heq).2, Entry.alive_iff]
        exact Nat.le_add_right _ _
      · exact h.1.2
  · rw [step, mem_sweep]
    exact fun h => h.2

theorem single_run {history : List Event}
    (hclock : history.Pairwise fun later before => before.now ≤ later.now) :
    Table.Single (run ttl history) := by
  rcases history with _ | ⟨event, earlier⟩
  · intro peer e e' he
    cases he
  · intro peer e e' he he'
    have h := ((mem_run_cons hclock).mp he).1
    rw [((mem_run_cons hclock).mp he').1, Option.some.injEq] at h
    exact h.symm

theorem company_run {event : Event} {earlier : List Event}
    (hclock : (event :: earlier).Pairwise fun later before => before.now ≤ later.now)
    (place : Place) :
    (run ttl (event :: earlier)).company place =
      here ttl (event :: earlier) event.now place := by
  ext a
  constructor
  · rintro ⟨⟨peer, e⟩, hmem, hplace, ha⟩
    obtain ⟨hstay, halive⟩ := (mem_run_cons hclock).mp hmem
    exact ⟨peer, e, hstay, Entry.alive_iff.mp halive, hplace, ha⟩
  · rintro ⟨peer, e, hstay, halive, hplace, ha⟩
    exact ⟨(peer, e), (mem_run_cons hclock).mpr ⟨hstay, Entry.alive_iff.mpr halive⟩, hplace, ha⟩

/-! ### Who is told -/

theorem company_sweep {t : Table} {now : ℕ} {place : Place} (h : place ∉ (t.sweep now ttl).2) :
    (t.sweep now ttl).1.company place = t.company place := by
  ext a
  constructor
  · rintro ⟨w, hw, hplace, ha⟩
    exact ⟨w, (mem_sweep.mp hw).1, hplace, ha⟩
  · rintro ⟨w, hw, hplace, ha⟩
    refine ⟨w, mem_sweep.mpr ⟨hw, ?_⟩, hplace, ha⟩
    by_contra hdead
    refine h (List.mem_toFinset.mpr (List.mem_map.mpr ⟨w, List.mem_filter.mpr ⟨hw, ?_⟩, hplace⟩))
    rwa [Bool.not_eq_true', ← Bool.not_eq_true]

/-- What an announcement leaves out is none of the places swept, and is the window's old place or
its new one only where the window was there already. -/
theorem not_mem_announce {t : Table} {peer user workspace : String} {board : Option String}
    {now : ℕ} {place : Place} (h : place ∉ (t.announce peer user workspace board now ttl).2) :
    place ∉ (t.sweep now ttl).2 ∧
      (∀ old, (t.sweep now ttl).1.lookup peer = some old → old.place = place →
        ∃ name, board = some name ∧ old.place = ⟨workspace, name⟩ ∧ old.user = user) ∧
      ∀ name, board = some name → (⟨workspace, name⟩ : Place) = place →
        ∃ old, (t.sweep now ttl).1.lookup peer = some old ∧ old.place = ⟨workspace, name⟩ ∧
          old.user = user := by
  rw [Table.announce] at h
  rcases board with _ | name
  · rcases hfound : (t.sweep now ttl).1.lookup peer with _ | old
    · simp only [hfound] at h
      exact ⟨h, by simp, by simp⟩
    · simp only [hfound, Finset.mem_insert, not_or] at h
      refine ⟨h.2, fun old' hold hplace => ?_, by simp⟩
      rw [Option.some.inj hold] at h
      exact absurd hplace.symm h.1
  · rcases hfound : (t.sweep now ttl).1.lookup peer with _ | old
    · simp only [hfound, Option.any_none, Bool.false_eq_true, if_false, Finset.mem_insert,
        not_or] at h
      refine ⟨h.2, by simp, fun name' hname hplace => ?_⟩
      rw [Option.some.inj hname] at h
      exact absurd hplace.symm h.1
    · by_cases hsame : old.place = ⟨workspace, name⟩ ∧ old.user = user
      · simp only [hfound, Option.any_some, hsame, and_self, decide_true, if_true] at h
        refine ⟨h, fun old' hold hplace => ⟨name, rfl, ?_⟩, fun name' hname hplace => ?_⟩
        · rwa [← Option.some.inj hold]
        · rw [← Option.some.inj hname]
          exact ⟨old, rfl, hsame⟩
      · simp only [hfound, Option.any_some, hsame, decide_false, Bool.false_eq_true, if_false,
          Finset.mem_insert, not_or] at h
        refine ⟨h.2.2, fun old' hold hplace => ?_, fun name' hname hplace => ?_⟩
        · rw [Option.some.inj hold] at h
          exact absurd hplace.symm h.2.1
        · rw [Option.some.inj hname] at h
          exact absurd hplace.symm h.1

theorem company_announce {t : Table} (ht : t.Single) {peer user workspace : String}
    {board : Option String} {now : ℕ} {place : Place}
    (h : place ∉ (t.announce peer user workspace board now ttl).2) :
    (t.announce peer user workspace board now ttl).1.company place = t.company place := by
  obtain ⟨hswept, hold, hnew⟩ := not_mem_announce h
  rw [← company_sweep hswept]
  have hsingle : Table.Single (t.sweep now ttl).1 := fun peer e e' he he' =>
    ht peer e e' (mem_sweep.mp he).1 (mem_sweep.mp he').1
  ext a
  constructor
  · rintro ⟨w, hw, hplace, ha⟩
    rcases board with _ | name
    · rw [announce_none] at hw
      exact ⟨w, (List.mem_filter.mp hw).1, hplace, ha⟩
    · rw [announce_some] at hw
      rcases List.mem_cons.mp hw with rfl | hw
      · obtain ⟨old, hfound, hsame⟩ := hnew name rfl hplace
        refine ⟨(peer, old), (Table.lookup_eq_some hsingle).mp hfound, hsame.1.trans hplace, ?_⟩
        rw [← ha]
        simp [hfound, hsame, Option.filter]
      · exact ⟨w, (List.mem_filter.mp hw).1, hplace, ha⟩
  · rintro ⟨⟨window, e⟩, hw, hplace, ha⟩
    by_cases hpeer : window = peer
    · subst hpeer
      have hfound := (Table.lookup_eq_some hsingle).mpr hw
      obtain ⟨name, rfl, hsame⟩ := hold e hfound hplace
      rw [announce_some]
      refine ⟨_, List.mem_cons_self, hsame.1.symm.trans hplace, ?_⟩
      rw [← ha]
      simp [hfound, hsame, Option.filter]
    · have hrest : (window, e) ∈ (t.sweep now ttl).1.filter fun w => w.1 ≠ peer :=
        List.mem_filter.mpr ⟨hw, decide_eq_true hpeer⟩
      rcases board with _ | name
      · exact ⟨_, by rwa [announce_none], hplace, ha⟩
      · exact ⟨_, by rw [announce_some]; exact List.mem_cons_of_mem _ hrest, hplace, ha⟩

/-- What an event leaves out has the company it had. -/
theorem company_step {t : Table} (ht : t.Single) {event : Event} {place : Place}
    (h : place ∉ (step ttl t event).2) :
    (step ttl t event).1.company place = t.company place := by
  rcases event with ⟨peer, user, workspace, board, now⟩ | now
  · exact company_announce ht h
  · exact company_sweep h

end Run

/-- No two users came to a place at one instant. -/
def Apart (company : Set (String × ℕ)) : Prop :=
  ∀ user other, NoLater company user other → NoLater company other user → user = other

/-- One company, nobody of it at one instant with another, is listed in one way. -/
theorem usersAt_eq {t t' : Table} {entries entries' : List Entry} (hreads : t.Reads entries)
    (hreads' : t'.Reads entries') {place : Place} (hcompany : t.company place = t'.company place)
    (hapart : Apart (t.company place)) : usersAt entries place = usersAt entries' place := by
  have hordered := usersAt_ordered hreads place
  have hordered' := usersAt_ordered hreads' place
  rw [← hcompany] at hordered'
  have hperm : (usersAt entries place).Perm (usersAt entries' place) := by
    refine (List.perm_ext_iff_of_nodup (usersOf_nodup _) (usersOf_nodup _)).mpr fun user => ?_
    rw [← usersAt, ← usersAt, mem_usersAt hreads, mem_usersAt hreads', hcompany]
  exact hperm.eq_of_pairwise (fun user other _ _ => hapart user other) hordered hordered'

/-- **Presence tells everyone who must know**: after each event the users at a place are those with
a window that last announced it within the time-to-live, each once, in order of arrival; and a place
that is not told of has the users it had, come when they came, listed as they were but for users who
came at one instant. -/
theorem users_told (ttl : ℕ) (event : Event) (earlier : List Event)
    (hclock : (event :: earlier).Pairwise fun later before => before.now ≤ later.now)
    (entries entries' : List Entry) (hbefore : (run ttl earlier).Reads entries)
    (hafter : (run ttl (event :: earlier)).Reads entries') (place : Place) :
    ((usersAt entries' place).Nodup ∧
      (∀ user, user ∈ usersAt entries' place ↔
        ∃ since, (user, since) ∈ here ttl (event :: earlier) event.now place) ∧
      (usersAt entries' place).Pairwise
        (NoLater (here ttl (event :: earlier) event.now place))) ∧
    (place ∉ (step ttl (run ttl earlier) event).2 →
      (run ttl earlier).company place = (run ttl (event :: earlier)).company place ∧
      (Apart ((run ttl earlier).company place) →
        usersAt entries place = usersAt entries' place)) := by
  rw [← company_run hclock]
  refine ⟨⟨usersOf_nodup _, fun user => mem_usersAt hafter place, usersAt_ordered hafter place⟩,
    fun htold => ?_⟩
  have hcompany := company_step (single_run (List.pairwise_cons.mp hclock).2) htold
  exact ⟨hcompany.symm, usersAt_eq hbefore hafter hcompany.symm⟩

/-! ### Two windows at one instant -/

/-- Anna's window and Bek's, at a board at once. -/
def together : List Event :=
  [.announce "w2" "bek" "ws" (some "board") 0, .announce "w1" "anna" "ws" (some "board") 0]

@[grind =]
def board : Place :=
  ⟨"ws", "board"⟩

@[grind =]
def anna : Entry :=
  ⟨"anna", board, 0, 0⟩

@[grind =]
def bek : Entry :=
  ⟨"bek", board, 0, 0⟩

/-- Anna's window says the same again. -/
def again : Event :=
  .announce "w1" "anna" "ws" (some "board") 1

theorem together_run : run 45 together = [("w2", bek), ("w1", anna)] ∧
    run 45 (again :: together) = [("w1", { anna with heard := 1 }), ("w2", bek)] := by
  decide

theorem again_clock :
    (again :: together).Pairwise fun later before => before.now ≤ later.now := by
  simp [again, together, Event.now]

/-- A heartbeat later, both are there in order of arrival. -/
theorem together_told : (usersAt [{ anna with heard := 1 }, bek] board).Pairwise
    (NoLater (here 45 (again :: together) 1 board)) := by
  have hbefore : (run 45 together).Reads [bek, anna] := by
    rw [together_run.1]
    exact List.Perm.refl _
  have hafter : (run 45 (again :: together)).Reads [{ anna with heard := 1 }, bek] := by
    rw [together_run.2]
    exact List.Perm.refl _
  exact (users_told 45 again together again_clock _ _ hbefore hafter board).1.2.2

/-- The heartbeat tells of nothing, and the two may be read the other way round after it. -/
theorem together_swapped :
    (again :: together).Pairwise (fun later before => before.now ≤ later.now) ∧
      (run 45 together).Reads [bek, anna] ∧
      (run 45 (again :: together)).Reads [{ anna with heard := 1 }, bek] ∧
      board ∉ (step 45 (run 45 together) again).2 ∧
      usersAt [bek, anna] board ≠ usersAt [{ anna with heard := 1 }, bek] board := by
  refine ⟨again_clock, ?_, ?_, ?_, ?_⟩
  · rw [together_run.1]
    exact List.Perm.refl _
  · rw [together_run.2]
    exact List.Perm.refl _
  · rw [together_run.1]
    decide
  · decide

end LocalSpace.Presence
