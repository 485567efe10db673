import Mathlib.Data.List.Range
import Mathlib.Data.List.Perm.Basic
import LocalSpace.Library.Runs

/-!
# A surface's writes over the bridge

`harness-sdk.js` and `HarnessFrame.tsx`: a surface numbers its writes and sends them to the shell,
which makes an HTTP request of each, and of the reading that follows it; notices of changes make
further readings. Core takes the requests, and the answers arrive, in any order. The shell stamps
the documents it hands to the surface with the highest write it knows to be answered: before the
request where a notice came, and when the reading has arrived where it follows a write.

Where Core takes the writes as they are numbered, and no answer to a write overtakes a reading that
Core made before it, the last write stands, every stamp is true and the surface goes back to no
document from before its latest write (`bridge_holds`).
-/

namespace LocalSpace

namespace Bridge

open Library

variable {D : Type}

/-- A change of Core's document, and what it made of it. -/
inductive Change (D : Type) where
  | own (seq : Nat) (made : D)
  | other (made : D)

@[grind =]
def Change.made : Change D → D
  | own _ made | other made => made

@[grind =]
def Change.seq? : Change D → Option Nat
  | own seq _ => some seq
  | other _ => none

/-- The surface's writes among changes, by their numbers. -/
@[grind =]
def numbers (log : List (Change D)) : List Nat :=
  log.filterMap Change.seq?

/-- A request on its way to Core. -/
inductive Ask (D : Type) where
  | writeDoc (seq : Nat) (doc : D)
  /-- with the stamp it was given when a notice made it; after a write there is none yet -/
  | getDoc (stamp : Option Nat)

@[grind =]
def Ask.seq? : Ask D → Option Nat
  | writeDoc seq _ => some seq
  | getDoc _ => none

/-- An answer on its way back; a document with the changes it was read after. -/
inductive Answer (D : Type) where
  | wrote (seq : Nat)
  | refused
  | doc (stamp : Option Nat) (doc : D) (log : List (Change D))

/-- A document posted to the surface. -/
structure Posting (D : Type) where
  doc : D
  written : Nat
  log : List (Change D)

/-- The surface, the shell and Core, and what is on its way between them. -/
structure State (D : Type) where
  /-- the number of the surface's last write -/
  seq : Nat
  /-- what `doc()` gives -/
  held : D
  /-- for the statements: what `held` was read after, unless it is the surface's own -/
  heldLog : Option (List (Change D))
  /-- writes posted to the shell -/
  out : List (Nat × D)
  /-- the highest write number Core has answered -/
  written : Nat
  asks : List (Ask D)
  answers : List (Answer D)
  /-- documents posted to the surface -/
  posted : List (Posting D)
  core : D
  /-- for the statements: what has changed Core's document -/
  log : List (Change D)

/-- A surface that has been opened with a document. -/
@[grind =]
def State.opened (doc : D) : State D where
  seq := 0
  held := doc
  heldLog := none
  out := []
  written := 0
  asks := []
  answers := []
  posted := []
  core := doc
  log := []

/-- What happens next. -/
inductive Act (D : Type) where
  | write (next : D)
  /-- the shell takes the surface's next message -/
  | onMessage
  /-- Core takes one of the requests -/
  | handle (i : Nat)
  /-- Core refuses one of the requests, or it fails on its way -/
  | refuse (i : Nat)
  /-- somebody else changes the document -/
  | change (next : D)
  /-- a notice of some change comes to the shell -/
  | docChanged
  /-- one of the answers arrives -/
  | arrive (i : Nat)
  /-- the surface takes the shell's next document -/
  | onDoc

namespace State

variable (s : State D)

/-- `write`. -/
@[grind =]
def write (next : D) : State D :=
  { s with
    seq := s.seq + 1, held := next, heldLog := none
    out := s.out ++ [(s.seq + 1, next)] }

/-- `onMessage`, a write. -/
def onMessage : State D :=
  match s.out with
  | (seq, doc) :: rest => { s with out := rest, asks := s.asks ++ [.writeDoc seq doc] }
  | [] => s

/-- `WriteDoc` and `GetDocJson`; `reconcile` takes what is written into what is there. -/
@[grind =]
def handle (reconcile : D → D → D) (i : Nat) : State D :=
  match s.asks[i]? with
  | some (.writeDoc seq doc) =>
    { s with
      asks := s.asks.eraseIdx i, answers := s.answers ++ [.wrote seq]
      core := reconcile s.core doc, log := s.log ++ [.own seq (reconcile s.core doc)] }
  | some (.getDoc stamp) =>
    { s with asks := s.asks.eraseIdx i, answers := s.answers ++ [.doc stamp s.core s.log] }
  | none => s

def refuse (i : Nat) : State D :=
  { s with asks := s.asks.eraseIdx i, answers := s.answers ++ [.refused] }

@[grind =]
def change (next : D) : State D :=
  { s with core := next, log := s.log ++ [.other next] }

/-- `doc_changed`: the stamp is what was known before the request. -/
def docChanged : State D :=
  { s with asks := s.asks ++ [.getDoc (some s.written)] }

/-- What follows a request: after a write another, for the document; a document is posted, stamped
with what is known now where it followed a write. -/
def arrive (i : Nat) : State D :=
  match s.answers[i]? with
  | some (.wrote seq) =>
    { s with
      answers := s.answers.eraseIdx i, written := max s.written seq
      asks := s.asks ++ [.getDoc none] }
  | some .refused => { s with answers := s.answers.eraseIdx i }
  | some (.doc stamp doc log) =>
    { s with
      answers := s.answers.eraseIdx i
      posted := s.posted ++ [⟨doc, stamp.getD s.written, log⟩] }
  | none => s

/-- The SDK's `doc`: a document from before the latest write is not kept. -/
def onDoc : State D :=
  match s.posted with
  | p :: rest =>
    if s.seq ≤ p.written then { s with posted := rest, held := p.doc, heldLog := some p.log }
    else { s with posted := rest }
  | [] => s

end State

/-- The bridge as a labelled system. -/
@[grind =]
def system (reconcile : D → D → D) : System (State D) (Act D) where
  step s
    | .write next => s.write next
    | .onMessage => s.onMessage
    | .handle i => s.handle reconcile i
    | .refuse i => s.refuse i
    | .change next => s.change next
    | .docChanged => s.docChanged
    | .arrive i => s.arrive i
    | .onDoc => s.onDoc
  enabled s
    | .handle i | .refuse i => i < s.asks.length
    | .arrive i => i < s.answers.length
    | _ => True

instance (reconcile : D → D → D) (s : State D) :
    (a : Act D) → Decidable ((system reconcile).enabled s a)
  | .handle i | .refuse i => inferInstanceAs (Decidable (i < s.asks.length))
  | .arrive i => inferInstanceAs (Decidable (i < s.answers.length))
  | .write _ | .onMessage | .change _ | .docChanged | .onDoc => .isTrue trivial

/-! ### What is promised -/

/-- All of the surface's writes up to a number are among changes. -/
def Includes (log : List (Change D)) (n : Nat) : Prop :=
  ∀ m, 1 ≤ m → m ≤ n → m ∈ numbers log

/-- What the bridge promises of a state. -/
structure Holds (s : State D) : Prop where
  /-- when all is answered, the last write stands where nobody else has written after it -/
  landed : s.out = [] → s.asks = [] → s.answers = [] → 0 < s.seq →
    ∃ before made after, s.log = before ++ .own s.seq made :: after ∧
      ((∀ c ∈ after, c.seq?.isSome = true) → s.core = made)
  /-- a document with a stamp was read after the writes up to it -/
  stamped : ∀ p ∈ s.posted, Includes p.log p.written
  /-- the surface has its own last write, or a document that was read after it -/
  forward : ∀ log, s.heldLog = some log → Includes log s.seq

/-- The order that the promise asks for: Core takes every write, after those numbered below it; and
an answer to a write overtakes no reading after a write that Core made before it. -/
def InOrder (s : State D) : Act D → Prop
  | .handle i => ∀ seq doc, s.asks[i]? = some (.writeDoc seq doc) →
      ∀ m, 1 ≤ m → m < seq → m ∈ numbers s.log
  | .refuse i => ∀ seq doc, s.asks[i]? ≠ some (.writeDoc seq doc)
  | .arrive i => ∀ seq, s.answers[i]? = some (.wrote seq) →
      ∀ doc log, .doc none doc log ∈ s.answers → seq ∈ numbers log
  | _ => True

/-! ### The invariant -/

/-- How many of the surface's writes are among changes. -/
@[grind =]
def count (log : List (Change D)) : Nat :=
  (numbers log).length

/-- The surface's writes came as they are numbered. -/
def Ordered (log : List (Change D)) : Prop :=
  numbers log = List.range' 1 (count log)

section Logs

variable {log : List (Change D)} {n : Nat} {made : D}

theorem Ordered.mem (h : Ordered log) : n ∈ numbers log ↔ 1 ≤ n ∧ n ≤ count log := by
  rw [h, List.mem_range'_1]
  omega

theorem Ordered.includes (h : Ordered log) (hn : n ≤ count log) : Includes log n :=
  fun _ hm hmn => h.mem.mpr ⟨hm, Nat.le_trans hmn hn⟩

theorem numbers_own : numbers (log ++ [.own n made]) = numbers log ++ [n] := by
  rw [numbers, List.filterMap_append]
  rfl

theorem numbers_other : numbers (log ++ [.other made]) = numbers log := by
  rw [numbers, List.filterMap_append]
  exact List.append_nil _

theorem Ordered.own (h : Ordered log) (hn : n = count log + 1) :
    Ordered (log ++ [.own n made]) := by
  rw [Ordered, count, numbers_own, List.length_append, List.length_singleton, hn,
    List.range'_1_concat, Nat.add_comm 1]
  exact congrArg (· ++ _) h

theorem Ordered.other (h : Ordered log) : Ordered (log ++ [.other made]) := by
  rw [Ordered, count, numbers_other]
  exact h

theorem count_own : count (log ++ [.own n made]) = count log + 1 := by
  rw [count, numbers_own, List.length_append]
  rfl

theorem count_other : count (log ++ [.other made]) = count log := by
  rw [count, numbers_other]
  rfl

end Logs

/-- What every state has that a run in order reaches. -/
structure Sound (s : State D) : Prop where
  /-- each write is on its way, or has been taken, once -/
  all : (s.out.map Prod.fst ++ s.asks.filterMap Ask.seq? ++ numbers s.log).Perm
    (List.range' 1 s.seq)
  ordered : Ordered s.log
  wrote : ∀ seq, .wrote seq ∈ s.answers → seq ≤ count s.log
  written : s.written ≤ count s.log
  asked : ∀ stamp, .getDoc (some stamp) ∈ s.asks → stamp ≤ count s.log
  read : ∀ stamp doc log, .doc stamp doc log ∈ s.answers →
    Ordered log ∧ stamp.getD s.written ≤ count log
  posted : ∀ p ∈ s.posted, Ordered p.log ∧ p.written ≤ count p.log
  held : ∀ log, s.heldLog = some log → Ordered log ∧ s.seq ≤ count log
  last : ∀ before c, s.log = before ++ [c] → s.core = c.made

section Steps

variable {s : State D} {reconcile : D → D → D} {i : Nat}

theorem perm_eraseIdx {α : Type} {l : List α} {a : α} (h : l[i]? = some a) :
    l.Perm (a :: l.eraseIdx i) := by
  obtain ⟨hlt, rfl⟩ := List.getElem?_eq_some_iff.mp h
  exact (List.getElem_cons_eraseIdx_perm hlt).symm

theorem seqs_getDoc (asks : List (Ask D)) (stamp : Option Nat) :
    (asks ++ [Ask.getDoc stamp]).filterMap Ask.seq? = asks.filterMap Ask.seq? := by
  rw [List.filterMap_append]
  exact List.append_nil _

theorem sound_opened (doc : D) : Sound (State.opened doc) where
  all := List.Perm.refl _
  ordered := rfl
  wrote := nofun
  written := Nat.le_refl _
  asked := nofun
  read := nofun
  posted := nofun
  held := nofun
  last before c h := by
    rw [State.opened] at h
    simp at h

theorem Sound.write (h : Sound s) (next : D) : Sound (s.write next) := by
  refine { h with all := ?_, held := nofun }
  have hperm : ((s.out ++ [(s.seq + 1, next)]).map Prod.fst ++ s.asks.filterMap Ask.seq? ++
      numbers s.log).Perm
      (s.out.map Prod.fst ++ s.asks.filterMap Ask.seq? ++ numbers s.log ++ [s.seq + 1]) := by
    refine List.perm_iff_count.mpr fun n => ?_
    simp only [List.map_append, List.map_cons, List.map_nil, List.count_append]
    omega
  refine hperm.trans ?_
  rw [State.write, List.range'_1_concat, Nat.add_comm 1]
  exact h.all.append_right _

theorem Sound.onMessage (h : Sound s) : Sound s.onMessage := by
  rw [State.onMessage]
  split
  · next seq doc rest hout =>
    refine { h with all := ?_, asked := fun stamp hmem => ?_ }
    · have hall := h.all
      rw [hout] at hall
      refine List.Perm.trans ?_ hall
      refine List.perm_iff_count.mpr fun n => ?_
      simp only [List.filterMap_append, List.filterMap_cons, Ask.seq?, List.filterMap_nil,
        List.map_cons, List.count_append, List.count_cons, List.count_nil]
      omega
    · obtain hmem | hmem := List.mem_append.mp hmem
      · exact h.asked stamp hmem
      · cases List.mem_singleton.mp hmem
  · exact h

theorem Sound.handle (h : Sound s) (hin : InOrder s (.handle i)) :
    Sound (s.handle reconcile i) := by
  rw [State.handle]
  split
  · next seq doc hask =>
    have hperm : (s.asks.filterMap Ask.seq?).Perm
        (seq :: (s.asks.eraseIdx i).filterMap Ask.seq?) :=
      (perm_eraseIdx hask).filterMap Ask.seq?
    have hnodup : (s.out.map Prod.fst ++ s.asks.filterMap Ask.seq? ++ numbers s.log).Nodup :=
      h.all.nodup_iff.mpr (List.nodup_range' ..)
    have hmem : seq ∈ s.asks.filterMap Ask.seq? := hperm.mem_iff.mpr List.mem_cons_self
    have hrange : 1 ≤ seq := by
      have := h.all.mem_iff.mp (List.mem_append_left _ (List.mem_append_right _ hmem))
      exact (List.mem_range'_1.mp this).1
    have hnew : seq = count s.log + 1 := by
      have hnot : seq ∉ numbers s.log := fun hlog =>
        (List.nodup_append.mp hnodup).2.2 seq (List.mem_append_right _ hmem) seq hlog rfl
      rw [h.ordered.mem] at hnot
      by_contra hne
      have hbelow := hin seq doc hask (seq - 1) (by omega) (by omega)
      rw [h.ordered.mem] at hbelow
      omega
    refine ⟨?_, h.ordered.own hnew, fun n hn => ?_, ?_, fun stamp hstamp => ?_,
      fun stamp d log hdoc => ?_, h.posted, h.held, fun before c heq => ?_⟩
    · refine List.Perm.trans (List.perm_iff_count.mpr fun n => ?_) h.all
      have hcount := hperm.count_eq n
      simp only [numbers_own, List.count_append, List.count_cons, List.count_nil] at hcount ⊢
      omega
    · rw [count_own]
      obtain hn | hn := List.mem_append.mp hn
      · exact Nat.le_succ_of_le (h.wrote n hn)
      · cases List.mem_singleton.mp hn
        exact hnew.le
    · rw [count_own]
      exact Nat.le_succ_of_le h.written
    · rw [count_own]
      exact Nat.le_succ_of_le (h.asked stamp (List.mem_of_mem_eraseIdx hstamp))
    · obtain hdoc | hdoc := List.mem_append.mp hdoc
      · exact h.read stamp d log hdoc
      · cases List.mem_singleton.mp hdoc
    · obtain ⟨-, hlast⟩ := List.append_inj' heq rfl
      cases hlast
      rfl
  · next stamp hask =>
    have hperm : (s.asks.filterMap Ask.seq?).Perm ((s.asks.eraseIdx i).filterMap Ask.seq?) :=
      (perm_eraseIdx hask).filterMap Ask.seq?
    refine { h with all := ?_, wrote := ?_, asked := ?_, read := ?_ }
    · refine List.Perm.trans (List.perm_iff_count.mpr fun n => ?_) h.all
      have hcount := hperm.count_eq n
      simp only [List.count_append] at hcount ⊢
      omega
    · intro n hn
      obtain hn | hn := List.mem_append.mp hn
      · exact h.wrote n hn
      · cases List.mem_singleton.mp hn
    · exact fun stamp hstamp => h.asked stamp (List.mem_of_mem_eraseIdx hstamp)
    · intro stamp' d log hdoc
      obtain hdoc | hdoc := List.mem_append.mp hdoc
      · exact h.read stamp' d log hdoc
      · cases List.mem_singleton.mp hdoc
        refine ⟨h.ordered, ?_⟩
        cases stamp with
        | none => exact h.written
        | some n => exact h.asked n (List.mem_of_getElem? hask)
  · exact h

theorem Sound.refuse (h : Sound s) (hlt : i < s.asks.length) (hin : InOrder s (.refuse i)) :
    Sound (s.refuse i) := by
  refine { h with all := ?_, wrote := ?_, asked := ?_, read := ?_ }
  · have hnone : (s.asks[i]).seq? = none := by
      cases hask : s.asks[i] with
      | writeDoc seq doc => exact absurd (List.getElem?_eq_some_iff.mpr ⟨hlt, hask⟩) (hin seq doc)
      | getDoc stamp => rfl
    have hperm := (perm_eraseIdx (List.getElem?_eq_getElem hlt)).filterMap Ask.seq?
    rw [List.filterMap_cons, hnone] at hperm
    refine List.Perm.trans (List.perm_iff_count.mpr fun n => ?_) h.all
    have hcount := hperm.count_eq n
    simp only [State.refuse, List.count_append] at hcount ⊢
    omega
  · intro n hn
    obtain hn | hn := List.mem_append.mp hn
    · exact h.wrote n hn
    · cases List.mem_singleton.mp hn
  · exact fun stamp hstamp => h.asked stamp (List.mem_of_mem_eraseIdx hstamp)
  · intro stamp d log hdoc
    obtain hdoc | hdoc := List.mem_append.mp hdoc
    · exact h.read stamp d log hdoc
    · cases List.mem_singleton.mp hdoc

theorem Sound.change (h : Sound s) (next : D) : Sound (s.change next) := by
  refine ⟨?_, h.ordered.other, ?_, ?_, ?_, h.read, h.posted, h.held, fun before c heq => ?_⟩
  · rw [State.change, numbers_other]
    exact h.all
  · rw [State.change, count_other]
    exact h.wrote
  · rw [State.change, count_other]
    exact h.written
  · rw [State.change, count_other]
    exact h.asked
  · obtain ⟨-, hlast⟩ := List.append_inj' heq rfl
    cases hlast
    rfl

theorem Sound.docChanged (h : Sound s) : Sound s.docChanged := by
  refine { h with all := ?_, asked := fun stamp hstamp => ?_ }
  · rw [State.docChanged, seqs_getDoc]
    exact h.all
  · obtain hstamp | hstamp := List.mem_append.mp hstamp
    · exact h.asked stamp hstamp
    · cases List.mem_singleton.mp hstamp
      exact h.written

theorem Sound.arrive (h : Sound s) (hin : InOrder s (.arrive i)) : Sound (s.arrive i) := by
  have hless : ∀ a, a ∈ s.answers.eraseIdx i → a ∈ s.answers := fun _ =>
    List.mem_of_mem_eraseIdx
  rw [State.arrive]
  split
  · next seq hanswer =>
    have hseq := h.wrote seq (List.mem_of_getElem? hanswer)
    refine { h with all := ?_, wrote := ?_, written := ?_, asked := ?_, read := ?_ }
    · rw [seqs_getDoc]
      exact h.all
    · exact fun n hn => h.wrote n (hless _ hn)
    · exact Nat.max_le.mpr ⟨h.written, hseq⟩
    · intro stamp hstamp
      obtain hstamp | hstamp := List.mem_append.mp hstamp
      · exact h.asked stamp hstamp
      · cases List.mem_singleton.mp hstamp
    · intro stamp d log hdoc
      obtain ⟨hordered, hstamp⟩ := h.read stamp d log (hless _ hdoc)
      refine ⟨hordered, ?_⟩
      cases stamp with
      | some n => exact hstamp
      | none =>
        -- what was read before this write was taken has already arrived
        have hread := hordered.mem.mp (hin seq hanswer d log (hless _ hdoc))
        exact Nat.max_le.mpr ⟨hstamp, hread.2⟩
  · exact { h with
      wrote := fun n hn => h.wrote n (hless _ hn)
      read := fun stamp d log hdoc => h.read stamp d log (hless _ hdoc) }
  · next stamp d log hanswer =>
    refine { h with wrote := ?_, read := ?_, posted := fun p hp => ?_ }
    · exact fun n hn => h.wrote n (hless _ hn)
    · exact fun stamp d log hdoc => h.read stamp d log (hless _ hdoc)
    · obtain hp | hp := List.mem_append.mp hp
      · exact h.posted p hp
      · cases List.mem_singleton.mp hp
        exact h.read stamp d log (List.mem_of_getElem? hanswer)
  · exact h

theorem Sound.onDoc (h : Sound s) : Sound s.onDoc := by
  rw [State.onDoc]
  split
  · next p rest hposted =>
    have hrest : ∀ q ∈ rest, Ordered q.log ∧ q.written ≤ count q.log := fun q hq =>
      h.posted q (hposted ▸ List.mem_cons_of_mem p hq)
    obtain ⟨hordered, hwritten⟩ := h.posted p (hposted ▸ List.mem_cons_self)
    split
    · next hnew =>
      refine { h with posted := hrest, held := fun log hlog => ?_ }
      cases hlog
      exact ⟨hordered, Nat.le_trans hnew hwritten⟩
    · exact { h with posted := hrest }
  · exact h

theorem Sound.step (h : Sound s) {a : Act D} (hcame : (system reconcile).enabled s a)
    (hin : InOrder s a) : Sound ((system reconcile).step s a) := by
  cases a with
  | write next => exact h.write next
  | onMessage => exact h.onMessage
  | handle i => exact h.handle hin
  | refuse i => exact h.refuse hcame hin
  | change next => exact h.change next
  | docChanged => exact h.docChanged
  | arrive i => exact h.arrive hin
  | onDoc => exact h.onDoc

end Steps

/-- **A surface's writes land in order and their stamps are true**, in every run whose requests and
answers keep the order that is asked for. -/
theorem bridge_holds (reconcile : D → D → D) (doc : D) {s : State D}
    (h : (system reconcile).Runs InOrder (State.opened doc) s) : Holds s := by
  have hsound : Sound s :=
    h.invariant (sound_opened doc) fun t a ht hcame hin => ht.step hcame hin
  refine ⟨fun hout hasks _ hpos => ?_, fun p hp => ?_, fun log hlog => ?_⟩
  · have hall := hsound.all
    rw [hout, hasks] at hall
    have hordered := hsound.ordered
    have hlength : count s.log = s.seq := by
      have := hall.length_eq
      rwa [List.length_range'] at this
    have hmem : s.seq ∈ numbers s.log := hordered.mem.mpr ⟨hpos, hlength.ge⟩
    obtain ⟨c, hc, hseq⟩ := List.mem_filterMap.mp hmem
    obtain ⟨before, after, hsplit⟩ := List.append_of_mem hc
    cases c with
    | other made => cases hseq
    | own n made =>
      cases hseq
      refine ⟨before, made, after, hsplit, fun hown => ?_⟩
      -- a write after the last would have a number beyond it
      cases after with
      | nil => exact hsound.last before _ hsplit
      | cons c rest =>
        obtain ⟨m, hm⟩ := Option.isSome_iff_exists.mp (hown c List.mem_cons_self)
        have hnumbers : numbers s.log = numbers before ++ s.seq :: m :: numbers rest := by
          rw [hsplit, numbers, List.filterMap_append, List.filterMap_cons, List.filterMap_cons, hm]
          rfl
        have hsorted : (numbers s.log).Pairwise (· < ·) := by
          rw [hordered]
          exact List.pairwise_lt_range'
        have hin : m ∈ numbers s.log := by
          rw [hnumbers]
          simp
        rw [hnumbers] at hsorted
        have hlt := List.rel_of_pairwise_cons (List.pairwise_append.mp hsorted).2.1
          List.mem_cons_self
        have hle := (hordered.mem.mp hin).2
        omega
  · obtain ⟨hordered, hwritten⟩ := hsound.posted p hp
    exact hordered.includes hwritten
  · obtain ⟨hordered, hseq⟩ := hsound.held log hlog
    exact hordered.includes hseq

/-- The reading after a write that an answer brings. -/
def Answer.reading : Answer D → Option (List (Change D))
  | doc none _ log => some log
  | _ => none

instance InOrder.decidable (s : State D) : (a : Act D) → Decidable (InOrder s a)
  | .handle i => match h : s.asks[i]? with
    | some (.writeDoc seq doc) => decidable_of_iff (∀ m < seq, 1 ≤ m → m ∈ numbers s.log)
        ⟨fun hall seq' doc' heq m hm hlt => by
          cases h.symm.trans heq
          exact hall m hlt hm, fun hall m hlt hm => hall seq doc h m hm hlt⟩
    | some (.getDoc _) | none => .isTrue fun seq doc heq => nomatch h.symm.trans heq
  | .refuse i => match h : s.asks[i]? with
    | some (.writeDoc seq doc) => .isFalse fun hall => hall seq doc h
    | some (.getDoc _) | none => .isTrue fun seq doc heq => nomatch h.symm.trans heq
  | .arrive i => match h : s.answers[i]? with
    | some (.wrote seq) => decidable_of_iff
        (∀ answer ∈ s.answers, ∀ log ∈ answer.reading, seq ∈ numbers log)
        ⟨fun hall seq' heq doc log hmem => by
          cases h.symm.trans heq
          exact hall _ hmem log rfl, fun hall answer hmem log hlog => by
            rw [Answer.reading.eq_def] at hlog
            split at hlog <;> cases hlog
            exact hall seq h _ log hmem⟩
    | some .refused | some (.doc _ _ _) | none => .isTrue fun seq heq => nomatch h.symm.trans heq
  | .write _ | .onMessage | .change _ | .docChanged | .onDoc => .isTrue trivial

/-- Three writes, two of them on their way together with the reading after another's change. -/
def threeWrites : List (Act Nat) :=
  [.write 1, .onMessage, .handle 0, .arrive 0, .handle 0, .arrive 0, .onDoc, .write 2, .write 3,
    .change 9, .docChanged, .onMessage, .onMessage, .handle 0, .handle 0, .handle 0, .arrive 0,
    .arrive 0, .arrive 0, .onDoc, .handle 0, .handle 0, .arrive 0, .arrive 0, .onDoc, .onDoc]

theorem bridge_holds_three :
    Holds ((system fun _ doc => doc).run (State.opened 0) threeWrites) :=
  bridge_holds _ 0 (System.runs_of_list (by decide +kernel))

/-- Two writes, taken in the other order, and all that follows. -/
def swapped : List (Act Nat) :=
  [.write 1, .write 2, .onMessage, .onMessage, .handle 1, .handle 0, .arrive 0, .arrive 0,
    .handle 0, .handle 0, .arrive 0, .arrive 0, .onDoc, .onDoc]

/-- Two writes, taken in order; the reading after the first arrives after the second's answer. -/
def overtaken : List (Act Nat) :=
  [.write 1, .onMessage, .handle 0, .arrive 0, .handle 0, .write 2, .onMessage, .handle 0,
    .arrive 1, .arrive 0, .onDoc]

theorem runs_swapped : (system fun _ doc => doc).Runs (fun _ _ => True) (State.opened 0)
    ((system fun _ doc => doc).run (State.opened 0) swapped) :=
  System.runs_of_list (by decide)

theorem runs_overtaken : (system fun _ doc => doc).Runs (fun _ _ => True) (State.opened 0)
    ((system fun _ doc => doc).run (State.opened 0) overtaken) :=
  System.runs_of_list (by decide)

/-- The first write stands, or is what the surface goes back to. -/
theorem writes_misplaced :
    (∃ s, (system fun _ doc => doc).Runs (fun _ _ => True) (State.opened 0) s ∧
      s.out = [] ∧ s.asks = [] ∧ s.answers = [] ∧ s.seq = 2 ∧ s.core = 1 ∧ ¬Holds s) ∧
    ∃ s, (system fun _ doc => doc).Runs (fun _ _ => True) (State.opened 0) s ∧
      numbers s.log = [1, 2] ∧ s.seq = 2 ∧ s.held = 1 ∧ ¬Holds s := by
  refine ⟨⟨_, runs_swapped, rfl, rfl, rfl, rfl, rfl, ?_⟩,
    ⟨_, runs_overtaken, by decide, rfl, rfl, ?_⟩⟩
  · intro h
    obtain ⟨before, made, after, hlog, hstands⟩ := h.landed rfl rfl rfl (by decide)
    have hlist : [Change.own 2 2, Change.own 1 1] = before ++ .own 2 made :: after := hlog
    cases before with
    | nil =>
      cases hlist
      exact absurd (hstands (by simp [Change.seq?])) (by decide)
    | cons c before =>
      rw [List.cons_append, List.cons.injEq] at hlist
      have hin : Change.own 2 made ∈ [Change.own 1 1] := by
        rw [hlist.2]
        simp
      cases List.mem_singleton.mp hin
  · intro h
    have hin : 2 ∈ numbers [Change.own 1 1] := h.forward [.own 1 1] rfl 2 (by decide) (by decide)
    exact absurd hin (by decide)

end Bridge

end LocalSpace
