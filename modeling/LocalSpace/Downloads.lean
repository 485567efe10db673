import Mathlib.Data.List.Nodup
import Mathlib.Logic.Function.Basic
import LocalSpace.Library.Runs

/-!
# The download line

`models.rs`: models are fetched one at a time, by one thread, in the order they were asked for;
another thread reads through the files that were already there. Both change `downloads`, the table
that is told to the shell, and so do the calls, which come one after another (Core is borrowed
mutably) while the threads go on between their locks.

The scanning thread removes the entry of a model it has looked at, whether or not the model has been
asked for meanwhile; and a model whose files it reads may be deleted before it has told of it.
-/

namespace LocalSpace

namespace Models

/-! ### The catalog -/

/-- What a file of a model must be. -/
structure FileCheck where
  bytes : ℕ
  sha256 : String

/-- An entry of the catalog: what it is fetched from, if anything, its files and what they must be;
an imported one has a path of its own. -/
structure CatalogModel where
  id : String
  repo : String
  path : Option String
  files : List String
  verify : String → Option FileCheck

def part (file : String) : String :=
  file ++ ".part"

/-- The paths that are a model's: its files, and what came of them so far. -/
def CatalogModel.paths (m : CatalogModel) : List String :=
  m.files.flatMap fun file => [file, part file]

/-! ### The state -/

inductive Stage where
  | queued
  | downloading
  | verifying
  | done
  | failed
deriving DecidableEq

/-- How a fetch ends. -/
inductive Ended where
  | done
  | failed
  | stopped
deriving DecidableEq

/-- A downloads' thread: at the line, with a model it has taken from it, or fetching it. -/
inductive Fetcher where
  | atLine
  | taken (id : String)
  | fetching (id : String)

/-- `Line`: who waits, each with the number of its request; who is at work, and whether that is to
stop; whether a thread runs. -/
structure Line where
  waiting : List (ℕ × String)
  running : Option (String × Bool)
  busy : Bool

/-- A call that is between two of its locks. -/
inductive Call where
  | spawning (id : String)
  | stopping (id : String)
  | checking (id : String)
  | deleting (id : String) (paths : List String)

/-- The line, the table, the threads and the call under way; and of the requests that were granted,
all in their order, those that were taken back (or for which no thread could be started), and those
whose fetch has begun. -/
structure State where
  line : Line
  downloads : String → Option Stage
  threads : List Fetcher
  scan : Option (List (String × List String))
  call : Option Call
  asked : List (ℕ × String)
  gone : List ℕ
  begun : List (ℕ × String)

/-- The model a thread is at work on. -/
def Fetcher.model : Fetcher → Option String
  | .atLine => none
  | .taken id | .fetching id => some id

/-- A stage of a model that is in the line or at work. -/
def underWay : Option Stage → Bool
  | some .queued | some .downloading | some .verifying => true
  | _ => false

/-- A stage of a model that the scan leaves out. -/
def busy : Option Stage → Bool
  | some .downloading | some .verifying => true
  | _ => false

namespace State

@[grind =]
def start : State :=
  ⟨⟨[], none, false⟩, fun _ => none, [], none, none, [], [], []⟩

variable (catalog : String → Option CatalogModel) (s : State)

/-- Who waits. -/
@[grind =]
def waits : List String :=
  s.line.waiting.map Prod.snd

/-- The models at work. -/
@[grind =]
def atWork : List String :=
  s.threads.filterMap Fetcher.model

/-- The models at work and those that wait. -/
@[grind =]
def held : List String :=
  s.atWork ++ s.waits

/-- What the scanning thread has to read still. -/
def toRead : List String :=
  (s.scan.getD []).flatMap Prod.snd

def paths (id : String) : List String :=
  ((catalog id).map CatalogModel.paths).getD []

/-! ### The calls -/

/-- A model is asked for: it goes to the end of the line, whose thread is to be started unless it
runs. -/
def download (id : String) : State :=
  match catalog id with
  | none => s
  | some m =>
    if m.repo = "" ∨ underWay (s.downloads id) ∨ id ∈ s.waits then s
    else
      { s with
        line := ⟨s.line.waiting ++ [(s.asked.length, id)], s.line.running, true⟩
        downloads := Function.update s.downloads id
          (some (if s.line.busy then .queued else .downloading))
        asked := s.asked ++ [(s.asked.length, id)]
        call := if s.line.busy then none else some (.spawning id) }

/-- The thread is started, or cannot be: the line is free again, and the model is not in it. -/
def spawned (id : String) (ok : Bool) : State :=
  if ok then { s with threads := s.threads ++ [.atLine], call := none }
  else
    { s with
      line := ⟨s.line.waiting.filter (·.2 ≠ id), s.line.running, false⟩
      downloads := Function.update s.downloads id none
      gone := (s.line.waiting.filter (·.2 = id)).map Prod.fst ++ s.gone
      call := none }

/-- A download is taken out of the line, or the one at work is told to stop. -/
def stop (id : String) : State :=
  match s.line.waiting.find? (·.2 = id) with
  | some w =>
    { s with
      line.waiting := s.line.waiting.erase w
      gone := w.1 :: s.gone
      call := some (.stopping id) }
  | none =>
    if s.line.running.map Prod.fst = some id then { s with line.running := some (id, true) } else s

/-- A model's files are to be deleted: not where it is in the line or at work. -/
@[grind =]
def delete (id : String) : State :=
  match catalog id with
  | none => s
  | some m =>
    if m.path.isSome ∨ s.line.running.map Prod.fst = some id ∨ id ∈ s.waits then s
    else { s with call := some (.checking id) }

/-- The table is looked at next: not where the model is being checked. -/
def checked (id : String) : State :=
  if s.downloads id = some .verifying then { s with call := none }
  else { s with call := some (.deleting id (paths catalog id)) }

/-- The files that are there under the catalog's names are to be looked at, unless they are being
looked at; `found` is what `unchecked` finds. -/
def scanPresent (found : List (String × List String)) (ok : Bool) : State :=
  let work := found.filter fun w => !busy (s.downloads w.1)
  if work = [] ∨ s.scan.isSome ∨ !ok then s else { s with scan := some work }

/-- What a call does after its next lock; where a file cannot be removed it ends. -/
def callGoesOn (ok : Bool) : State :=
  match s.call with
  | none => s
  | some (.spawning id) => s.spawned id ok
  | some (.stopping id) => { s with downloads := Function.update s.downloads id none, call := none }
  | some (.checking id) => s.checked catalog id
  | some (.deleting id (_ :: rest)) =>
    { s with call := if ok then some (.deleting id rest) else none }
  | some (.deleting id []) =>
    { s with downloads := Function.update s.downloads id none, call := none }

/-! ### The threads -/

/-- A downloads' thread takes the first of the line, or ends where there is none; and says that what
it took is being fetched. -/
@[grind =]
def turn (i : ℕ) : State :=
  match s.threads[i]? with
  | some .atLine =>
    match s.line.waiting with
    | [] => { s with line := ⟨[], none, false⟩, threads := s.threads.eraseIdx i }
    | w :: rest =>
      { s with
        line := ⟨rest, some (w.2, false), s.line.busy⟩
        threads := s.threads.set i (.taken w.2)
        begun := s.begun ++ [w] }
  | some (.taken id) =>
    { s with
      downloads := Function.update s.downloads id (some .downloading)
      threads := s.threads.set i (.fetching id) }
  | _ => s

/-- How far a fetch has come is told, or that a file that came is compared. -/
def report (i : ℕ) (comparing : Bool) : State :=
  match s.threads[i]? with
  | some (.fetching id) =>
    { s with
      downloads := Function.update s.downloads id
        (some (if comparing then .verifying else .downloading)) }
  | _ => s

/-- A fetch ends: it was stopped only where it was told to. -/
@[grind =]
def ended (i : ℕ) (how : Ended) : State :=
  match s.threads[i]? with
  | some (.fetching id) =>
    if how = .stopped ∧ s.line.running ≠ some (id, true) then s
    else
      { s with
        downloads := Function.update s.downloads id (match how with
          | .done => some .done
          | .failed => some .failed
          | .stopped => none)
        threads := s.threads.set i .atLine }
  | _ => s

/-- The scanning thread tells of the model it reads. -/
def scanReport : State :=
  match s.scan with
  | some ((id, _) :: _) =>
    { s with downloads := Function.update s.downloads id (some .verifying) }
  | _ => s

/-- The scanning thread has read a file; or all of a model, whose entry it removes; or all there
is. -/
def scanGoesOn : State :=
  match s.scan with
  | some ((id, _ :: files) :: rest) => { s with scan := some ((id, files) :: rest) }
  | some ((id, []) :: rest) =>
    { s with downloads := Function.update s.downloads id none, scan := some rest }
  | _ => { s with scan := none }

end State

/-! ### Runs -/

inductive Act where
  | download (id : String)
  | stop (id : String)
  | delete (id : String)
  | scanPresent (found : List (String × List String)) (ok : Bool)
  | callGoesOn (ok : Bool)
  | turn (i : ℕ)
  | report (i : ℕ) (comparing : Bool)
  | ended (i : ℕ) (how : Ended)
  | scanReport
  | scanGoesOn

namespace Act

variable (catalog : String → Option CatalogModel)

@[grind =]
def apply (s : State) : Act → State
  | download id => s.download catalog id
  | stop id => s.stop id
  | delete id => s.delete catalog id
  | scanPresent found ok => s.scanPresent found ok
  | callGoesOn ok => s.callGoesOn catalog ok
  | turn i => s.turn i
  | report i comparing => s.report i comparing
  | ended i how => s.ended i how
  | scanReport => s.scanReport
  | scanGoesOn => s.scanGoesOn

/-- A call is made when the one before it has answered. -/
def Enabled (s : State) : Act → Prop
  | download _ | stop _ | delete _ | scanPresent _ _ => s.call = none
  | _ => True

/-- What is asked of an act: the scan comes to the end of a model that is neither waiting nor at
work; and where a delete finds a model that the table does not tell to be checked, the scan has none
of its files to read, and no other model that waits or is at work has one of them. -/
def Meets (s : State) : Act → Prop
  | scanGoesOn => ∀ id rest, s.scan = some ((id, []) :: rest) → id ∉ s.held
  | callGoesOn _ => ∀ id, s.call = some (.checking id) → s.downloads id ≠ some .verifying →
      ∀ path ∈ State.paths catalog id, path ∉ s.toRead ∧
        ∀ other ∈ s.held, other ≠ id → path ∉ State.paths catalog other
  | _ => True

end Act

open Library

def line (catalog : String → Option CatalogModel) : System State Act :=
  ⟨Act.apply catalog, Act.Enabled⟩

/-- The downloads' thread goes on by itself, through fetches that end so. -/
@[grind =]
def State.served (s : State) (ends : List Ended) : State :=
  ends.foldl (fun s how => ((s.ended 0 how).turn 0).turn 0) s

/-- The line is a queue: one model is fetched at a time; those whose fetch has begun and those that
wait are what was asked for and not taken back, in its order, each once, and the thread gets to the
end of them; what is removed is neither written nor read; and whatever waits or is at work has its
entry. -/
structure State.Queue (catalog : String → Option CatalogModel) (s : State) : Prop where
  one : s.atWork.length ≤ 1
  order : s.begun ++ s.line.waiting = s.asked.filter (·.1 ∉ s.gone)
  once : s.held.Nodup
  fetched : ∀ ends, Ended.stopped ∉ ends → s.waits.length + 2 ≤ ends.length →
    (∀ id, s.call ≠ some (.spawning id)) → (s.served ends).threads = [] ∧
      (s.served ends).begun = s.asked.filter (·.1 ∉ s.gone)
  unused : ∀ id path rest, s.call = some (.deleting id (path :: rest)) →
    path ∉ s.toRead ∧ ∀ other ∈ s.atWork, path ∉ State.paths catalog other
  entries : ∀ id ∈ s.held, (s.downloads id).isSome

/-! ### What a step keeps -/

section Steps

variable {catalog : String → Option CatalogModel} {s s' : State} {id : String}

/-- No thread reads or writes a path, nor will for what it has to do now. -/
def State.Unused (catalog : String → Option CatalogModel) (s : State) (path : String) : Prop :=
  path ∉ s.toRead ∧ ∀ other ∈ s.held, path ∉ State.paths catalog other

/-- What holds while a call is under way. -/
def Call.Clear (catalog : String → Option CatalogModel) (s : State) : Call → Prop
  | spawning id => s.threads = [] ∧ s.line.busy = true ∧ s.waits = [id]
  | stopping id => id ∉ s.held
  | checking id => id ∉ s.held
  | deleting id paths => id ∉ s.held ∧ ∀ path ∈ paths, s.Unused catalog path

/-- The line's invariant. -/
structure State.Good (catalog : String → Option CatalogModel) (s : State) : Prop where
  tickets : s.asked.map Prod.fst = List.range s.asked.length
  fresh : ∀ t ∈ s.gone, t < s.asked.length
  order : s.begun ++ s.line.waiting = s.asked.filter (·.1 ∉ s.gone)
  once : s.held.Nodup
  entries : ∀ id ∈ s.held, underWay (s.downloads id) = true
  thread : (s.threads = [] ∧ (s.line.busy = false → s.line.waiting = []) ∧
      (s.line.busy = true → ∃ id, s.call = some (.spawning id))) ∨
    (∃ f, s.threads = [f]) ∧ s.line.busy = true
  running : ∀ id ∈ s.atWork, s.line.running.map Prod.fst = some id
  call : ∀ c, s.call = some c → c.Clear catalog s

theorem good_start : State.start.Good catalog where
  tickets := rfl
  fresh _ h := nomatch h
  order := rfl
  once := List.nodup_nil
  entries _ h := nomatch h
  thread := .inl ⟨rfl, fun _ => rfl, fun h => nomatch h⟩
  running _ h := nomatch h
  call _ h := nomatch h

/-- A model that waits or is at work is told of as such. -/
theorem underWay_update {held : List String} {table : String → Option Stage} {stage : Option Stage}
    (h : ∀ i ∈ held, underWay (table i) = true) (hid : id ∈ held → underWay stage = true) :
    ∀ i ∈ held, underWay (Function.update table id stage i) = true := by
  intro i hi
  by_cases hii : i = id
  · subst hii
    rw [Function.update_self]
    exact hid hi
  · rw [Function.update_of_ne hii]
    exact h i hi

/-- Of the requests that are not taken back, one more is. -/
theorem order_gone {asked xs ys : List (ℕ × String)} {gone : List ℕ} {w : ℕ × String}
    (hnodup : (asked.map Prod.fst).Nodup)
    (h : xs ++ w :: ys = asked.filter (·.1 ∉ gone)) :
    xs ++ ys = asked.filter (·.1 ∉ w.1 :: gone) := by
  have hboth : asked.filter (·.1 ∉ w.1 :: gone) =
      (asked.filter (·.1 ∉ gone)).filter (·.1 ≠ w.1) := by
    rw [List.filter_filter]
    refine List.filter_congr fun x _ => ?_
    rw [← Bool.decide_and]
    exact decide_eq_decide.mpr (by rw [List.mem_cons, not_or])
  have hone : ((xs ++ w :: ys).map Prod.fst).Nodup := by
    rw [h]
    exact hnodup.sublist (List.filter_sublist.map _)
  rw [List.map_append, List.map_cons, List.nodup_middle, List.nodup_cons] at hone
  have hkept : ∀ x ∈ xs ++ ys, decide (x.1 ≠ w.1) = true := by
    intro x hx
    refine decide_eq_true fun heq => hone.1 ?_
    rw [← List.map_append, ← heq]
    exact List.mem_map_of_mem hx
  rw [hboth, ← h, List.filter_append, List.filter_cons_of_neg (by simp), ← List.filter_append,
    List.filter_eq_self.mpr hkept]

theorem Call.Clear.mono {c : Call} (h : c.Clear catalog s) (hheld : s'.held ⊆ s.held)
    (hread : s'.toRead ⊆ s.toRead)
    (hspawn : ∀ id, c = .spawning id → s'.threads = s.threads ∧ s'.line = s.line) :
    c.Clear catalog s' := by
  have hunused : ∀ path, s.Unused catalog path → s'.Unused catalog path := fun path hpath =>
    ⟨fun hin => hpath.1 (hread hin), fun other hother => hpath.2 other (hheld hother)⟩
  cases c with
  | spawning id =>
    obtain ⟨hthreads, hline⟩ := hspawn id rfl
    rw [Call.Clear, State.waits, hthreads, hline]
    exact h
  | stopping id => exact fun hin => h (hheld hin)
  | checking id => exact fun hin => h (hheld hin)
  | deleting id paths =>
    exact ⟨fun hin => h.1 (hheld hin), fun path hpath => hunused path (h.2 path hpath)⟩

/-- The one thread there is. -/
theorem State.Good.only (h : s.Good catalog) {i : ℕ} {f : Fetcher} (hf : s.threads[i]? = some f) :
    i = 0 ∧ s.threads = [f] ∧ s.line.busy = true := by
  obtain ⟨hnone, -⟩ | ⟨⟨g, hg⟩, hbusy⟩ := h.thread
  · rw [hnone] at hf
    cases hf
  · rw [hg] at hf
    cases i with
    | zero =>
      cases hf
      exact ⟨rfl, hg, hbusy⟩
    | succ i => cases hf

theorem State.Good.not_spawning (h : s.Good catalog) {f : Fetcher} (hf : s.threads = [f]) :
    s.call ≠ some (.spawning id) := by
  intro hcall
  have hclear := (h.call _ hcall).1
  rw [hf] at hclear
  cases hclear

theorem State.Good.idle (h : s.Good catalog) (hbusy : s.line.busy = false) :
    s.threads = [] ∧ s.line.waiting = [] := by
  obtain ⟨hthreads, hwaiting, -⟩ | ⟨-, hbusy'⟩ := h.thread
  · exact ⟨hthreads, hwaiting hbusy⟩
  · rw [hbusy] at hbusy'
    cases hbusy'

theorem State.Good.download (h : s.Good catalog) (hcall : s.call = none) :
    (s.download catalog id).Good catalog := by
  rw [State.download]
  split
  · exact h
  · split
    · exact h
    · next m _ hfree =>
      rw [not_or, not_or] at hfree
      obtain ⟨-, hstage, hwaits⟩ := hfree
      have hid : id ∉ s.held := by
        intro hin
        exact hstage (h.entries id hin)
      have hheld : s.atWork ++ (s.line.waiting ++ [(s.asked.length, id)]).map Prod.snd =
          s.held ++ [id] := by
        rw [List.map_append, ← List.append_assoc]
        rfl
      refine ⟨?_, fun t ht => ?_, ?_, ?_, ?_, ?_, h.running, fun c hc => ?_⟩
      · rw [List.map_append, h.tickets, List.length_append, List.length_singleton,
          List.range_succ]
        rfl
      · rw [List.length_append]
        exact Nat.lt_add_right _ (h.fresh t ht)
      · rw [← List.append_assoc, h.order, List.filter_append]
        congr 1
        refine (List.filter_eq_self.mpr fun x hx => ?_).symm
        rw [List.mem_singleton.mp hx]
        exact decide_eq_true fun hin => Nat.lt_irrefl _ (h.fresh _ hin)
      · refine (congrArg List.Nodup hheld).mpr (List.nodup_append.mpr ⟨h.once, ?_, ?_⟩)
        · exact List.nodup_singleton id
        · intro a ha b hb hab
          rw [List.mem_singleton] at hb
          exact hid (hb ▸ hab ▸ ha)
      · intro i hi
        change i ∈ s.atWork ++ (s.line.waiting ++ [(s.asked.length, id)]).map Prod.snd at hi
        change underWay (Function.update s.downloads id _ i) = true
        by_cases hii : i = id
        · rw [hii, Function.update_self]
          cases s.line.busy <;> rfl
        · rw [Function.update_of_ne hii]
          rw [hheld, List.mem_append, List.mem_singleton] at hi
          exact h.entries i (hi.resolve_right hii)
      · cases hbusy : s.line.busy with
        | true =>
          obtain ⟨-, -, hspawn⟩ | hthread := h.thread
          · obtain ⟨i, hi⟩ := hspawn hbusy
            rw [hcall] at hi
            cases hi
          · exact .inr ⟨hthread.1, rfl⟩
        | false => exact .inl ⟨(h.idle hbusy).1, fun hb => (nomatch hb), fun _ => ⟨id, rfl⟩⟩
      · cases hbusy : s.line.busy with
        | true =>
          change (if s.line.busy then none else some (Call.spawning id)) = some c at hc
          rw [hbusy] at hc
          cases hc
        | false =>
          change (if s.line.busy then none else some (Call.spawning id)) = some c at hc
          rw [hbusy] at hc
          cases hc
          obtain ⟨hthreads, hwaiting⟩ := h.idle hbusy
          refine ⟨hthreads, rfl, ?_⟩
          change (s.line.waiting ++ [(s.asked.length, id)]).map Prod.snd = [id]
          rw [hwaiting]
          rfl

/-- The thread is started on a line with one model in it, or the line is empty again. -/
theorem State.Good.spawned (h : s.Good catalog) (hcall : s.call = some (.spawning id)) (ok : Bool) :
    (s.spawned id ok).Good catalog := by
  obtain ⟨hthreads, hbusy, hwaits⟩ := h.call _ hcall
  obtain ⟨w, hw, rfl⟩ : ∃ w, s.line.waiting = [w] ∧ w.2 = id := by
    rw [State.waits] at hwaits
    obtain ⟨w, hw, hid⟩ := List.map_eq_singleton_iff.mp hwaits
    exact ⟨w, hw, hid⟩
  have hwork : s.atWork = [] := by rw [State.atWork, hthreads]; rfl
  rw [State.spawned]
  cases ok with
  | true =>
    rw [if_pos rfl, hthreads]
    have hheld : ({ s with threads := [] ++ [.atLine], call := none } : State).held = s.held := by
      rw [State.held, State.held, hwork]
      rfl
    exact ⟨h.tickets, h.fresh, h.order, hheld ▸ h.once, hheld ▸ h.entries,
      .inr ⟨⟨.atLine, rfl⟩, hbusy⟩, fun _ hi => (nomatch hi), fun _ hc => (nomatch hc)⟩
  | false =>
    rw [if_neg Bool.false_ne_true, hw]
    have hnone : [w].filter (·.2 ≠ w.2) = [] := by simp
    have hall : [w].filter (·.2 = w.2) = [w] := by simp
    rw [hnone, hall]
    have horder := h.order
    rw [hw] at horder
    refine ⟨h.tickets, fun t ht => ?_, ?_, ?_, ?_, ?_, ?_, fun _ hc => (nomatch hc)⟩
    · obtain rfl | ht := List.mem_cons.mp ht
      · have hmem : w ∈ s.asked.filter (·.1 ∉ s.gone) := by
          rw [← horder]
          exact List.mem_append_right _ List.mem_cons_self
        have hticket := List.mem_map_of_mem (f := Prod.fst) (List.mem_filter.mp hmem).1
        rw [h.tickets, List.mem_range] at hticket
        exact hticket
      · exact h.fresh t ht
    · refine order_gone ?_ horder
      rw [h.tickets]
      exact List.nodup_range
    · change (s.atWork ++ []).Nodup
      rw [hwork]
      exact List.nodup_nil
    · intro i hi
      change i ∈ s.atWork ++ [] at hi
      rw [hwork] at hi
      cases hi
    · exact .inl ⟨hthreads, fun _ => rfl, fun hb => (nomatch hb)⟩
    · intro i hi
      change i ∈ s.atWork at hi
      rw [hwork] at hi
      cases hi

theorem State.Good.stop (h : s.Good catalog) (hcall : s.call = none) :
    (s.stop id).Good catalog := by
  rw [State.stop]
  split
  · next w hfind =>
    have hfound := List.find?_some hfind
    have hid : w.2 = id := of_decide_eq_true hfound
    have hmem := List.mem_of_find?_eq_some hfind
    obtain ⟨pre, post, -, hsplit, herase⟩ := List.exists_erase_eq hmem
    have horder := h.order
    rw [hsplit, ← List.append_assoc] at horder
    have hheld : s.held = (s.atWork ++ pre.map Prod.snd) ++ id :: post.map Prod.snd := by
      rw [State.held, State.waits, hsplit, List.map_append, List.map_cons, hid, List.append_assoc]
    have hheld' : s.atWork ++ (s.line.waiting.erase w).map Prod.snd =
        (s.atWork ++ pre.map Prod.snd) ++ post.map Prod.snd := by
      rw [herase, List.map_append, List.append_assoc]
    have honce := h.once
    rw [hheld, List.nodup_middle, List.nodup_cons] at honce
    have hsub : ∀ i ∈ s.atWork ++ (s.line.waiting.erase w).map Prod.snd, i ∈ s.held := by
      intro i hi
      rw [hheld'] at hi
      rw [hheld, List.mem_append, List.mem_cons]
      exact (List.mem_append.mp hi).imp_right .inr
    refine ⟨h.tickets, fun t ht => ?_, ?_, ?_, fun i hi => h.entries i (hsub i hi), ?_, h.running,
      fun c hc => ?_⟩
    · obtain rfl | ht := List.mem_cons.mp ht
      · have hasked : w ∈ s.asked.filter (·.1 ∉ s.gone) := by
          rw [← h.order]
          exact List.mem_append_right _ hmem
        have hticket := List.mem_map_of_mem (f := Prod.fst) (List.mem_filter.mp hasked).1
        rw [h.tickets, List.mem_range] at hticket
        exact hticket
      · exact h.fresh t ht
    · have hgone := order_gone (h.tickets ▸ List.nodup_range) horder
      rw [List.append_assoc, ← herase] at hgone
      exact hgone
    · exact (congrArg List.Nodup hheld').mpr honce.2
    · obtain ⟨-, hwaiting, hspawn⟩ | hthread := h.thread
      · cases hbusy : s.line.busy with
        | true =>
          obtain ⟨i, hi⟩ := hspawn hbusy
          rw [hcall] at hi
          cases hi
        | false =>
          rw [hwaiting hbusy] at hmem
          cases hmem
      · exact .inr hthread
    · cases hc
      intro hin
      change id ∈ s.atWork ++ (s.line.waiting.erase w).map Prod.snd at hin
      rw [hheld'] at hin
      exact honce.1 hin
  · split
    · next hrunning =>
      refine ⟨h.tickets, h.fresh, h.order, h.once, h.entries, h.thread, fun i hi => ?_,
        fun c hc => ?_⟩
      · rw [← h.running i hi, hrunning]
        rfl
      · rw [hcall] at hc
        cases hc
    · exact h

theorem State.Good.delete (h : s.Good catalog) (hcall : s.call = none) :
    (s.delete catalog id).Good catalog := by
  rw [State.delete]
  split
  · exact h
  · split
    · exact h
    · next hfree =>
      rw [not_or, not_or] at hfree
      obtain ⟨-, hrunning, hwaits⟩ := hfree
      have hid : id ∉ s.held := by
        intro hin
        obtain hwork | hwait := List.mem_append.mp hin
        · exact hrunning (h.running id hwork)
        · exact hwaits hwait
      refine ⟨h.tickets, h.fresh, h.order, h.once, h.entries, ?_, h.running, fun c hc => ?_⟩
      · obtain ⟨hthreads, hwaiting, hspawn⟩ | hthread := h.thread
        · refine .inl ⟨hthreads, hwaiting, fun hbusy => ?_⟩
          obtain ⟨i, hi⟩ := hspawn hbusy
          rw [hcall] at hi
          cases hi
        · exact .inr hthread
      · cases hc
        exact hid

/-- A call that is not starting a thread goes on: nothing changes but an entry of what is neither
waiting nor at work. -/
theorem State.Good.goOn {call : Option Call} {table : String → Option Stage}
    (h : s.Good catalog) (hspawn : ∀ i, s.call ≠ some (.spawning i))
    (hentries : ∀ i ∈ s.held, underWay (table i) = true)
    (hcall : ∀ c, call = some c → c.Clear catalog { s with downloads := table, call := call }) :
    ({ s with downloads := table, call := call } : State).Good catalog := by
  refine ⟨h.tickets, h.fresh, h.order, h.once, hentries, ?_, h.running, hcall⟩
  obtain ⟨hthreads, hwaiting, hbusy⟩ | hthread := h.thread
  · exact .inl ⟨hthreads, hwaiting, fun hb => absurd (hbusy hb).choose_spec (hspawn _)⟩
  · exact .inr hthread

theorem State.Good.callGoesOn {ok : Bool} (h : s.Good catalog)
    (hmeets : (Act.callGoesOn ok).Meets catalog s) : (s.callGoesOn catalog ok).Good catalog := by
  rw [State.callGoesOn]
  cases hcall : s.call with
  | none => exact h
  | some c =>
    have hclear := h.call c hcall
    cases c with
    | spawning id => exact h.spawned hcall ok
    | stopping id =>
      refine h.goOn (fun i hi => ?_) ?_ fun c hc => (nomatch hc)
      · rw [hcall] at hi
        cases hi
      · exact underWay_update h.entries fun hin => absurd hin hclear
    | checking id =>
      have hspawn : ∀ i, s.call ≠ some (.spawning i) := by
        intro i hi
        rw [hcall] at hi
        cases hi
      dsimp only
      rw [State.checked]
      split
      · exact h.goOn hspawn h.entries fun c hc => (nomatch hc)
      · next hstage =>
        refine h.goOn hspawn h.entries fun c hc => ?_
        cases hc
        refine ⟨hclear, fun path hpath => ?_⟩
        obtain ⟨hread, hothers⟩ := hmeets id hcall hstage path hpath
        exact ⟨hread, fun other hother => hothers other hother fun heq => hclear (heq ▸ hother)⟩
    | deleting id paths =>
      have hspawn : ∀ i, s.call ≠ some (.spawning i) := by
        intro i hi
        rw [hcall] at hi
        cases hi
      cases paths with
      | nil =>
        refine h.goOn hspawn ?_ fun c hc => (nomatch hc)
        exact underWay_update h.entries fun hin => absurd hin hclear.1
      | cons path rest =>
        refine h.goOn hspawn h.entries fun c hc => ?_
        cases ok with
        | true =>
          cases hc
          exact ⟨hclear.1, fun p hp => hclear.2 p (List.mem_cons_of_mem _ hp)⟩
        | false => cases hc

/-- The one thread there is goes on: what is in the line or at work stays so or goes, in its
order. -/
theorem State.Good.goes {f g : Fetcher} {waiting begun : List (ℕ × String)}
    {running : Option (String × Bool)} {table : String → Option Stage} (h : s.Good catalog)
    (hf : s.threads = [f]) (hbusy : s.line.busy = true)
    (horder : begun ++ waiting = s.begun ++ s.line.waiting)
    (hheld : (g.model.toList ++ waiting.map Prod.snd).Sublist s.held)
    (hentries : ∀ i ∈ g.model.toList ++ waiting.map Prod.snd, underWay (table i) = true)
    (hrunning : ∀ i ∈ g.model.toList, running.map Prod.fst = some i) :
    ({ s with
      line := ⟨waiting, running, s.line.busy⟩
      downloads := table
      threads := [g]
      begun := begun } : State).Good catalog := by
  have hwork : [g].filterMap Fetcher.model = g.model.toList := by
    rw [List.filterMap_cons, List.filterMap_nil]
    cases g.model <;> rfl
  refine ⟨h.tickets, h.fresh, horder.trans h.order, ?_, ?_, .inr ⟨⟨g, rfl⟩, hbusy⟩, ?_,
    fun c hc => ?_⟩
  · rw [State.held, State.atWork, hwork]
    exact h.once.sublist hheld
  · rw [State.held, State.atWork, hwork]
    exact hentries
  · rw [State.atWork, hwork]
    exact hrunning
  · refine (h.call c hc).mono ?_ (List.Subset.refl _) fun i hi => ?_
    · rw [State.held, State.atWork, hwork]
      exact hheld.subset
    · exact absurd (hc.trans (congrArg some hi)) (h.not_spawning hf)

theorem State.held_eq {f : Fetcher} (hf : s.threads = [f]) :
    s.held = f.model.toList ++ s.line.waiting.map Prod.snd := by
  rw [State.held, State.atWork, hf, List.filterMap_cons, List.filterMap_nil]
  cases f.model <;> rfl

theorem State.Good.turn (h : s.Good catalog) (i : ℕ) : (s.turn i).Good catalog := by
  rw [State.turn]
  split
  · next hi =>
    obtain ⟨rfl, hf, hbusy⟩ := h.only hi
    have hheld := State.held_eq hf
    have horder := h.order
    cases hwaiting : s.line.waiting with
    | nil =>
      rw [hwaiting] at horder
      dsimp only
      rw [hf]
      refine ⟨h.tickets, h.fresh, horder, List.nodup_nil, fun _ hi => (nomatch hi),
        .inl ⟨rfl, fun _ => rfl, fun hb => (nomatch hb)⟩, fun _ hi => (nomatch hi), fun c hc => ?_⟩
      refine (h.call c hc).mono (List.nil_subset _) (List.Subset.refl _) fun i hi => ?_
      exact absurd (hc.trans (congrArg some hi)) (h.not_spawning hf)
    | cons w rest =>
      dsimp only
      rw [hf]
      rw [hwaiting] at hheld
      refine h.goes (f := .atLine) (g := .taken w.2) hf hbusy ?_ ?_ ?_ ?_
      · rw [hwaiting, List.append_assoc]
        rfl
      · rw [hheld]
        exact List.Sublist.refl _
      · intro i hi
        exact h.entries i (hheld ▸ hi)
      · intro i hi
        rw [List.mem_singleton.mp hi]
        rfl
  · next id hi =>
    obtain ⟨rfl, hf, hbusy⟩ := h.only hi
    have hheld := State.held_eq hf
    rw [hf]
    refine h.goes (f := .taken id) (g := .fetching id) hf hbusy rfl ?_ ?_ ?_
    · rw [hheld]
      exact List.Sublist.refl _
    · refine underWay_update (fun i hi => h.entries i (hheld ▸ hi)) fun _ => rfl
    · intro i hi
      refine h.running i ?_
      rw [State.atWork, hf]
      exact hi
  · exact h

theorem State.Good.report (h : s.Good catalog) (i : ℕ) (comparing : Bool) :
    (s.report i comparing).Good catalog := by
  rw [State.report]
  split
  · next id hi =>
    obtain ⟨rfl, hf, hbusy⟩ := h.only hi
    refine ⟨h.tickets, h.fresh, h.order, h.once, ?_, h.thread, h.running, h.call⟩
    exact underWay_update h.entries fun _ => by cases comparing <;> rfl
  · exact h

theorem State.Good.ended (h : s.Good catalog) (i : ℕ) (how : Ended) :
    (s.ended i how).Good catalog := by
  rw [State.ended.eq_def]
  split
  · next id hi =>
    obtain ⟨rfl, hf, hbusy⟩ := h.only hi
    have hheld := State.held_eq hf
    have honce := h.once
    rw [hheld] at honce
    split
    · exact h
    · rw [hf]
      refine h.goes (f := .fetching id) (g := .atLine) hf hbusy rfl ?_ ?_ fun _ hi => (nomatch hi)
      · rw [hheld]
        exact List.sublist_append_right _ _
      · intro j hj
        have hne : j ≠ id := fun heq => (List.nodup_cons.mp honce).1 (heq ▸ hj)
        rw [Function.update_of_ne hne]
        exact h.entries j (hheld ▸ List.mem_append_right _ hj)
  · exact h

theorem State.Good.scanReport (h : s.Good catalog) : s.scanReport.Good catalog := by
  rw [State.scanReport]
  split
  · refine ⟨h.tickets, h.fresh, h.order, h.once, ?_, h.thread, h.running, h.call⟩
    exact underWay_update h.entries fun _ => rfl
  · exact h

/-- The scanning thread reads less and less. -/
theorem State.Good.reads {scan : Option (List (String × List String))}
    {table : String → Option Stage} (h : s.Good catalog)
    (hread : (scan.getD []).flatMap Prod.snd ⊆ s.toRead)
    (hentries : ∀ i ∈ s.held, underWay (table i) = true) :
    ({ s with downloads := table, scan := scan } : State).Good catalog :=
  ⟨h.tickets, h.fresh, h.order, h.once, hentries, h.thread, h.running, fun c hc =>
    (h.call c hc).mono (List.Subset.refl _) hread fun _ _ => ⟨rfl, rfl⟩⟩

theorem State.Good.scanGoesOn (h : s.Good catalog) (hmeets : Act.scanGoesOn.Meets catalog s) :
    s.scanGoesOn.Good catalog := by
  rw [State.scanGoesOn]
  split
  · next id file files rest hscan =>
    refine h.reads ?_ h.entries
    rw [State.toRead, hscan]
    exact List.subset_cons_self _ _
  · next id rest hscan =>
    refine h.reads ?_ (underWay_update h.entries fun hin => absurd hin (hmeets id rest hscan))
    rw [State.toRead, hscan]
    exact List.Subset.refl _
  · exact h.reads (List.nil_subset _) h.entries

theorem State.Good.scanPresent (h : s.Good catalog) (hcall : s.call = none)
    (found : List (String × List String)) (ok : Bool) : (s.scanPresent found ok).Good catalog := by
  rw [State.scanPresent]
  split
  · exact h
  · refine ⟨h.tickets, h.fresh, h.order, h.once, h.entries, h.thread, h.running, fun c hc => ?_⟩
    change s.call = some c at hc
    rw [hcall] at hc
    cases hc

/-- **A step** keeps the line. -/
theorem State.Good.step {a : Act} (h : s.Good catalog) (hcame : a.Enabled s)
    (hmeets : a.Meets catalog s) : (a.apply catalog s).Good catalog := by
  cases a with
  | download id => exact h.download hcame
  | stop id => exact h.stop hcame
  | delete id => exact h.delete hcame
  | scanPresent found ok => exact h.scanPresent hcame found ok
  | callGoesOn ok => exact h.callGoesOn hmeets
  | turn i => exact h.turn i
  | report i comparing => exact h.report i comparing
  | ended i how => exact h.ended i how
  | scanReport => exact h.scanReport
  | scanGoesOn => exact h.scanGoesOn hmeets

/-- How many more fetches the thread has to come to the end of. -/
@[grind =]
def State.need (s : State) : ℕ :=
  match s.threads with
  | [] => 0
  | .taken _ :: _ => s.line.waiting.length + 2
  | _ => s.line.waiting.length + 1

theorem State.Good.need_round (h : s.Good catalog) {how : Ended} (hhow : how ≠ .stopped) :
    (((s.ended 0 how).turn 0).turn 0).need ≤ s.need - 1 := by
  obtain ⟨hf, -⟩ | ⟨⟨f, hf⟩, -⟩ := h.thread
  · simp [State.need, State.ended, State.turn, hf]
  · cases f with
    | atLine =>
      cases hwaiting : s.line.waiting with
      | nil => simp [State.need, State.ended, State.turn, hf, hwaiting]
      | cons w rest => simp [State.need, State.ended, State.turn, hf, hwaiting]
    | taken id => simp [State.need, State.ended, State.turn, hf]
    | fetching id =>
      cases hwaiting : s.line.waiting with
      | nil => simp [State.need, State.ended, State.turn, hf, hwaiting, hhow]
      | cons w rest => simp [State.need, State.ended, State.turn, hf, hwaiting, hhow]

/-- What the thread does leaves the requests and the call as they are. -/
theorem State.served_frame (s : State) (ends : List Ended) : (s.served ends).asked = s.asked ∧
    (s.served ends).gone = s.gone ∧ (s.served ends).call = s.call := by
  have hturn : ∀ (s : State) i, (s.turn i).asked = s.asked ∧ (s.turn i).gone = s.gone ∧
      (s.turn i).call = s.call := by
    intro s i
    rw [State.turn]
    split
    · split <;> exact ⟨rfl, rfl, rfl⟩
    · exact ⟨rfl, rfl, rfl⟩
    · exact ⟨rfl, rfl, rfl⟩
  have hended : ∀ (s : State) i how, (s.ended i how).asked = s.asked ∧
      (s.ended i how).gone = s.gone ∧ (s.ended i how).call = s.call := by
    intro s i how
    rw [State.ended.eq_def]
    split
    · split <;> exact ⟨rfl, rfl, rfl⟩
    · exact ⟨rfl, rfl, rfl⟩
  induction ends generalizing s with
  | nil => exact ⟨rfl, rfl, rfl⟩
  | cons how ends ih =>
    obtain ⟨hasked, hgone, hcall⟩ := ih (((s.ended 0 how).turn 0).turn 0)
    obtain ⟨ha, hg, hc⟩ := hended s 0 how
    obtain ⟨ha', hg', hc'⟩ := hturn (s.ended 0 how) 0
    obtain ⟨ha'', hg'', hc''⟩ := hturn ((s.ended 0 how).turn 0) 0
    exact ⟨hasked.trans (ha''.trans (ha'.trans ha)), hgone.trans (hg''.trans (hg'.trans hg)),
      hcall.trans (hc''.trans (hc'.trans hc))⟩

theorem State.Good.served (h : s.Good catalog) {ends : List Ended} (hends : Ended.stopped ∉ ends)
    (hneed : s.need ≤ ends.length) :
    (s.served ends).Good catalog ∧ (s.served ends).threads = [] := by
  induction ends generalizing s with
  | nil =>
    refine ⟨h, ?_⟩
    obtain ⟨hf, -⟩ | ⟨⟨f, hf⟩, -⟩ := h.thread
    · exact hf
    · rw [State.need, hf] at hneed
      cases f <;> simp at hneed
  | cons how ends ih =>
    rw [List.mem_cons, not_or] at hends
    have hround := h.need_round (Ne.symm hends.1)
    rw [List.length_cons] at hneed
    exact ih (((h.ended 0 how).turn 0).turn 0) hends.2
      (Nat.le_trans hround (Nat.sub_le_of_le_add hneed))

theorem State.Good.fetched (h : s.Good catalog) {ends : List Ended} (hends : Ended.stopped ∉ ends)
    (hlength : s.waits.length + 2 ≤ ends.length) (hspawn : ∀ id, s.call ≠ some (.spawning id)) :
    (s.served ends).threads = [] ∧
      (s.served ends).begun = s.asked.filter (·.1 ∉ s.gone) := by
  have hneed : s.need ≤ ends.length := by
    rw [State.waits, List.length_map] at hlength
    rw [State.need]
    split <;> omega
  obtain ⟨hgood, hthreads⟩ := h.served hends hneed
  obtain ⟨hasked, hgone, hcall⟩ := s.served_frame ends
  refine ⟨hthreads, ?_⟩
  have hwaiting : (s.served ends).line.waiting = [] := by
    obtain ⟨-, hidle, hbusy⟩ | ⟨⟨f, hf⟩, -⟩ := hgood.thread
    · cases hline : (s.served ends).line.busy with
      | true =>
        obtain ⟨id, hid⟩ := hbusy hline
        exact absurd (hcall.symm.trans hid) (hspawn id)
      | false => exact hidle hline
    · rw [hthreads] at hf
      cases hf
  have horder := hgood.order
  rw [hwaiting, List.append_nil, hasked, hgone] at horder
  exact horder

theorem State.Good.queue (h : s.Good catalog) : s.Queue catalog where
  one := by
    obtain ⟨hthreads, -⟩ | ⟨⟨f, hf⟩, -⟩ := h.thread
    · rw [State.atWork, hthreads]
      exact Nat.zero_le 1
    · rw [State.atWork, hf]
      exact List.length_filterMap_le _ _
  order := h.order
  once := h.once
  fetched _ hends hlength hspawn := h.fetched hends hlength hspawn
  unused id path rest hcall := by
    obtain ⟨hread, hwork⟩ := (h.call _ hcall).2 path List.mem_cons_self
    exact ⟨hread, fun other hother => hwork other (List.mem_append_left _ hother)⟩
  entries id hid := by
    have hstage := h.entries id hid
    cases hentry : s.downloads id with
    | none =>
      rw [hentry] at hstage
      cases hstage
    | some stage => rfl

end Steps

/-- **The download line is a queue**, after every run whose acts meet their condition. -/
theorem line_queue {catalog : String → Option CatalogModel} {s : State}
    (h : (line catalog).Runs (Act.Meets catalog) .start s) : s.Queue catalog :=
  (h.invariant good_start fun _ _ hgood hcame hmeets => hgood.step hcame hmeets).queue

/-- Two models of one file each. -/
def twoModels (id : String) : Option CatalogModel :=
  if id ∈ ["a", "b"] then
    some ⟨id, "example/" ++ id, none, [id ++ ".gguf"], fun _ => some ⟨3, "ab"⟩⟩
  else none

/-- One is fetched while the other is looked at, which is asked to be deleted before the look is
over and after it. -/
def deletedAfterLook : List Act :=
  [.scanPresent [("b", ["b.gguf"])] true, .download "a", .callGoesOn true, .turn 0, .turn 0,
    .scanReport, .delete "b", .callGoesOn true, .scanGoesOn, .scanGoesOn, .delete "b",
    .callGoesOn true, .callGoesOn true, .callGoesOn true, .callGoesOn true, .ended 0 .done]

theorem line_queue_two : ((line twoModels).run .start deletedAfterLook).Queue twoModels := by
  refine line_queue (System.runs_of_list ⟨rfl, trivial, rfl, trivial, trivial, ?_, trivial, trivial,
    trivial, trivial, trivial, trivial, rfl, trivial, trivial, ?_, trivial, ?_, trivial, ?_, rfl,
    trivial, trivial, ?_, trivial, ?_, trivial, ?_, trivial, ?_, trivial, trivial, trivial⟩)
  · rintro id ⟨⟩
  · rintro id ⟨⟩ hstage
    exact absurd rfl hstage
  · rintro id rest ⟨⟩
  · rintro id rest ⟨⟩
    decide
  · rintro id ⟨⟩ -
    decide
  · rintro id ⟨⟩
  · rintro id ⟨⟩
  · rintro id ⟨⟩

/-- The scan comes to the end of a model that was asked for after it began: its entry goes while it
is fetched. -/
theorem entry_lost : ¬((line twoModels).run .start
    ([.scanPresent [("a", ["a.gguf"])] true, .download "a", .callGoesOn true, .turn 0, .turn 0,
      .scanGoesOn, .scanGoesOn] : List Act)).Queue twoModels := by
  intro h
  have hentry := h.entries "a" (by decide)
  exact absurd hentry (by decide)

end Models

end LocalSpace
