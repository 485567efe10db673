import Mathlib.Data.List.Induction
import LocalSpace.Audit
import LocalSpace.Library.Fields
import LocalSpace.Library.Runs

/-!
# The audit log on disk

`audit.rs`: a log opened on a directory, the records it chains, and its writer, which is a queue
behind and has a file for each day. A record goes to the file of its own day, but never to an
older one than the newest there is; the chain's end and the next number are read back from the
last record at each opening. The log is read back whole where every file it wrote to is one it
reads (`log_kept`), which the name of a day from the year 10000 on is not (`far_record_lost`).
-/

namespace LocalSpace

open Library

/-- A scribe whose lines stand in a file: a blank line is none of its own. -/
structure LineScribe extends Scribe where
  blank : Text → Bool
  write_blank : ∀ j, blank (write j) = false

namespace Audit

/-! ### Days and numbers -/

/-- A number with zeros before it, to a width: `{:0width}`. -/
def padded (width n : Nat) : List Char :=
  List.replicate (width - (Nat.toDigits 10 n).length) '0' ++ Nat.toDigits 10 n

/-- Days since 1970-01-01 to a date, after Hinnant: year, month, day. -/
def civilFromDays (days : Nat) : Nat × Nat × Nat :=
  let z := days + 719468
  let era := z / 146097
  let doe := z - era * 146097
  let yoe := (doe - doe / 1460 + doe / 36524 - doe / 146096) / 365
  let y := yoe + era * 400
  let doy := doe - (365 * yoe + yoe / 4 - yoe / 100)
  let mp := (5 * doy + 2) / 153
  let d := doy - (153 * mp + 2) / 5 + 1
  let m := if mp < 10 then mp + 3 else mp - 9
  (if m ≤ 2 then y + 1 else y, m, d)

/-- The UTC day of a time, as its file is named. -/
def dayOf (tsMs : UInt64) : String :=
  let (y, m, d) := civilFromDays (tsMs.toNat / 86400000)
  String.ofList (padded 4 y ++ ['-'] ++ padded 2 m ++ ['-'] ++ padded 2 d)

/-- A file's stem is a day's: ten characters, `YYYY-MM-DD`. -/
def isDayFile (stem : String) : Bool :=
  stem.toList.length = 10 ∧ stem.toList.zipIdx.all fun (c, i) =>
    if i = 4 ∨ i = 7 then c = '-' else c.isDigit

def recordId (seq : Nat) : String :=
  String.ofList ('a' :: padded 12 seq)

/-- A number's digits, a plus sign before them left out. -/
def digitsOf : List Char → List Char
  | '+' :: rest => rest
  | text => text

/-- `str::parse::<u64>`. -/
def parseU64 (text : List Char) : Option Nat :=
  if digitsOf text ≠ [] ∧ (digitsOf text).all Char.isDigit ∧
      Nat.ofDigitChars 10 (digitsOf text) 0 < 2 ^ 64 then
    some (Nat.ofDigitChars 10 (digitsOf text) 0)
  else none

/-! ### The directory -/

/-- A log that is open: the chain's end, the records its writer has yet to write, the newest day
the writer knows of and the day whose file it has open. -/
structure OpenLog where
  prev : String
  seq : Nat
  queue : List Record
  floor : String
  current : Option String

/-- A log's directory: the file from before the daily cut, the files named `<stem>.jsonl` by
stem, in order, and the log open on it. `appended` is not the directory's own: it recalls all
that was appended. -/
structure Site (S : LineScribe) where
  legacy : Option (List S.Text)
  days : List (String × List S.Text)
  log : Option OpenLog
  appended : List Record

variable {S : LineScribe}

/-- A file that is read back: its name and its lines. -/
abbrev LogFile (S : LineScribe) := String × List S.Text

/-- The log's files, oldest first. -/
def Site.filesInOrder (s : Site S) : List (LogFile S) :=
  s.legacy.toList.map (legacyFile, ·) ++
    (s.days.filter fun f => isDayFile f.1).map fun f => (f.1 ++ ".jsonl", f.2)

def newestDay (s : Site S) : Option String :=
  ((s.days.filter fun f => isDayFile f.1).getLast?).map Prod.fst

def readLine (S : LineScribe) (line : S.Text) : Option Record :=
  (S.read line).bind Record.ofJson

/-- The records of a file, none when a line is not one. -/
@[grind =]
def readRecords (S : LineScribe) : List S.Text → Option (List Record)
  | [] => some []
  | line :: rest =>
    if S.blank line then readRecords S rest
    else do
      let r ← readLine S line
      let rs ← readRecords S rest
      return r :: rs

def readFiles : List (LogFile S) → Option (List Record)
  | [] => some []
  | file :: rest => do
    let rs ← readRecords S file.2
    let more ← readFiles rest
    return rs ++ more

/-- Every record in a log's directory, oldest first. -/
def Site.readAll (s : Site S) : Option (List Record) :=
  readFiles s.filesInOrder

/-- The last record of some files, the newest first: from the first that has one. -/
def lastOf : List (LogFile S) → Option (Option Record)
  | [] => some none
  | file :: rest => do
    match (← readRecords S file.2).getLast? with
    | some r => return some r
    | none => lastOf rest

def lastRecord (s : Site S) : Option (Option Record) :=
  lastOf s.filesInOrder.reverse

/-- The number in an id of the log's own. -/
def numberOf (id : String) : Option Nat :=
  match id.toList with
  | c :: digits => if c = 'a' then parseU64 digits else none
  | [] => none

/-- The number after a record's: its own plus one, or else a count of everything on disk. -/
def seqAfter (s : Site S) (last : Record) : Option Nat :=
  match numberOf last.id with
  | some n => some (n + 1)
  | none => s.readAll.map List.length

/-! ### What is done with a log -/

/-- What a record is made of, its place in the chain apart. -/
structure Entry where
  tsMs : UInt64
  actor : Actor
  scope : Scope
  event : String
  detail : Json
  result : String

inductive Op where
  | openLog
  | append (entry : Entry)
  /-- The writer writes the next record of its queue. -/
  | write
  /-- A flush comes back, or the log is closed, once the queue is written. -/
  | flush
  | close

/-- `AuditLog::open`, which goes on from the last record on disk. -/
def openAt (s : Site S) : Option OpenLog := do
  let last ← lastRecord s
  let (prev, seq) ← match last with
    | some r => (seqAfter s r).map fun seq => (S.hash r, seq)
    | none => some (genesis, 0)
  return ⟨prev, seq, [], (newestDay s).getD "", none⟩

/-- The record an entry becomes. -/
@[grind =]
def OpenLog.next (log : OpenLog) (e : Entry) : Record :=
  ⟨e.tsMs, recordId log.seq, log.prev, e.actor, e.scope, e.event, e.detail, e.result⟩

/-- The day whose file a record is written to. -/
def OpenLog.routed (log : OpenLog) (r : Record) : String :=
  if dayOf r.tsMs < log.floor then log.floor else dayOf r.tsMs

@[grind =]
def Site.step (s : Site S) : Op → Site S
  | .openLog =>
    match openAt s with
    | some log => { s with log := some log }
    | none => s
  | .append e =>
    match s.log with
    | some log =>
      let r := log.next e
      { s with
        log := some { log with prev := S.hash r, seq := log.seq + 1, queue := log.queue ++ [r] }
        appended := s.appended ++ [r] }
    | none => s
  | .write =>
    match s.log with
    | some log =>
      match log.queue with
      | r :: rest =>
        let day := log.routed r
        let floor := if log.current = some day then log.floor else day
        { s with
          days := Fields.put day ((s.days.lookup day).getD [] ++ [S.write r.toJson]) s.days
          log := some { log with queue := rest, floor := floor, current := some day } }
      | [] => s
    | none => s
  | .flush => s
  | .close => { s with log := none }

@[grind =]
def Site.queued (s : Site S) : List Record :=
  (s.log.map OpenLog.queue).getD []

/-- One log at a time is open on a directory. -/
def Site.enabled (s : Site S) : Op → Prop
  | .openLog => s.log = none
  | .append _ => s.log.isSome = true
  | .write => s.queued ≠ []
  | .flush | .close => s.log.isSome = true ∧ s.queued = []

def logSystem (S : LineScribe) : System (Site S) Op where
  step := Site.step
  enabled := Site.enabled

/-! ### The walk of a log -/

structure Report where
  records : Nat := 0
  files : Nat := 0
  firstDay : Option String := none
  lastDay : Option String := none

/-- The lines of a file, from a number on, walked from a place in the chain. -/
def verifyLines (S : LineScribe) (file : String) :
    Nat → List S.Text → String → Report → Except VerifyError (String × Report)
  | _, [], prev, report => .ok (prev, report)
  | i, line :: rest, prev, report =>
    if S.blank line then verifyLines S file (i + 1) rest prev report
    else match readLine S line with
      | none => .error (.malformed file (i + 1))
      | some r =>
        if r.prev ≠ prev then
          .error (.broken report.records r.id prev r.prev (some ⟨file, i + 1⟩))
        else
          verifyLines S file (i + 1) rest (S.hash r) { report with
            records := report.records + 1
            firstDay := report.firstDay.or (some (dayOf r.tsMs))
            lastDay := some (dayOf r.tsMs) }

def verifyFiles : List (LogFile S) → String → Report → Except VerifyError Report
  | [], _, report => .ok report
  | file :: rest, prev, report => do
    let report := { report with files := report.files + 1 }
    let (prev, report) ← verifyLines S file.1 0 file.2 prev report
    verifyFiles rest prev report

def Site.verifyDir (s : Site S) : Except VerifyError Report :=
  verifyFiles s.filesInOrder genesis {}

/-! ### Reading files back -/

variable {s : Site S} {rs more : List Record}

theorem readRecords_append (a b : List S.Text) : readRecords S (a ++ b) =
    (readRecords S a).bind fun rs => (readRecords S b).map (rs ++ ·) := by
  induction a with
  | nil => simp [readRecords]
  | cons line rest ih =>
    rw [List.cons_append, readRecords, readRecords]
    split
    · exact ih
    · rw [ih]
      cases readLine S line with
      | none => rfl
      | some r =>
        cases readRecords S rest with
        | none => rfl
        | some rs => cases readRecords S b <;> rfl

/-- A record written is read back where its JSON is. -/
theorem readRecords_write {r : Record} (hr : S.read (S.write r.toJson) = some r.toJson) :
    readRecords S [S.write r.toJson] = some [r] := by
  have hblank := S.write_blank r.toJson
  simp [readRecords, readLine, hblank, hr]

/-- Files are read as all their lines are. -/
theorem readFiles_eq (files : List (LogFile S)) :
    readFiles files = readRecords S (files.flatMap Prod.snd) := by
  induction files with
  | nil => rfl
  | cons file rest ih =>
    rw [readFiles, List.flatMap_cons, readRecords_append, ih]
    cases readRecords S file.2 with
    | none => rfl
    | some rs => cases readRecords S (rest.flatMap Prod.snd) <;> rfl

/-- The last record of the files is the last of all their records. -/
theorem lastOf_reverse {files : List (LogFile S)} (h : readFiles files = some rs) :
    lastOf files.reverse = some rs.getLast? := by
  induction files using List.reverseRecOn generalizing rs with
  | nil =>
    obtain rfl : [] = rs := Option.some.inj h
    rfl
  | append_singleton files file ih =>
    rw [readFiles_eq, List.flatMap_append, readRecords_append, ← readFiles_eq] at h
    obtain ⟨first, hfirst, h⟩ := Option.bind_eq_some_iff.1 h
    obtain ⟨last, hlast, rfl⟩ := Option.map_eq_some_iff.1 h
    have hfile : readRecords S file.2 = some last := by
      rwa [List.flatMap_cons, List.flatMap_nil, List.append_nil] at hlast
    rw [List.reverse_append, List.reverse_singleton, List.singleton_append, lastOf, hfile]
    simp only [bind, Option.bind]
    cases hend : last.getLast? with
    | some r => simp [List.getLast?_append, hend]
    | none =>
      rw [List.getLast?_eq_none_iff.1 hend, List.append_nil]
      exact ih hfirst

/-! ### Numbers are read back -/

theorem parseU64_padded {width n m : Nat} (h : parseU64 (padded width n) = some m) : m = n := by
  have hdigits : ∀ c ∈ padded width n, c.isDigit = true := by
    intro c hc
    rcases List.mem_append.1 hc with hc | hc
    · rw [List.eq_of_mem_replicate hc]
      rfl
    · exact Nat.isDigit_of_mem_toDigits (by decide) (by decide) hc
  have hvalue : Nat.ofDigitChars 10 (padded width n) 0 = n := by
    rw [padded, Nat.ofDigitChars_append, Nat.ofDigitChars_replicate_zero, Nat.mul_zero,
      Nat.ofDigitChars_ten_toDigits]
  have hplain : digitsOf (padded width n) = padded width n := by
    unfold digitsOf
    split
    · next rest hplus =>
      have := hdigits '+' (hplus ▸ List.mem_cons_self)
      exact absurd this (by decide)
    · rfl
  unfold parseU64 at h
  rw [hplain, hvalue] at h
  split at h
  · exact (Option.some.inj h).symm
  · cases h

/-- Records numbered from zero, none left out. -/
def Numbered (rs : List Record) : Prop :=
  rs.map Record.id = (List.range rs.length).map recordId

theorem Numbered.concat (h : Numbered rs) {r : Record} (hr : r.id = recordId rs.length) :
    Numbered (rs ++ [r]) := by
  unfold Numbered at h ⊢
  rw [List.map_append, h, List.length_append, List.length_singleton, List.range_succ,
    List.map_append, List.map_singleton, List.map_singleton, hr]

/-- The number after the last of a numbered log is how many there are. -/
theorem seqAfter_eq (hall : s.readAll = some rs) (hids : Numbered rs) {last : Record}
    (hlast : rs.getLast? = some last) : seqAfter s last = some rs.length := by
  obtain ⟨before, rfl⟩ : ∃ before, rs = before ++ [last] :=
    ⟨rs.dropLast, (List.dropLast_append_getLast? last hlast).symm⟩
  have hid : last.id = recordId before.length := by
    have := congrArg List.getLast? hids
    simpa [List.range_succ] using this
  have hcount : s.readAll.map List.length = some (before ++ [last]).length := by
    rw [hall]
    rfl
  have hnumber : numberOf last.id = parseU64 (padded 12 before.length) := by
    unfold numberOf
    rw [hid, recordId, String.toList_ofList]
    rfl
  unfold seqAfter
  rw [hnumber]
  cases hn : parseU64 (padded 12 before.length) with
  | some n => simp [parseU64_padded hn]
  | none => exact hcount

/-! ### The invariant -/

/-- What is asked of a step: a record's JSON is read back as it was written, and the day whose
file it is written to has a name that is one. -/
def Site.Meets (s : Site S) : Op → Prop
  | .append e => ∀ log, s.log = some log →
    S.read (S.write (log.next e).toJson) = some (log.next e).toJson
  | .write => ∀ log r rest, s.log = some log → log.queue = r :: rest →
    isDayFile (dayOf r.tsMs) = true ∨ dayOf r.tsMs < log.floor
  | _ => True

/-- An open log knows the end of all that was appended, and the newest day. -/
structure OpenLog.Follows (log : OpenLog) (s : Site S) : Prop where
  prev : log.prev = tip S.hash genesis s.appended
  seq : log.seq = s.appended.length
  floor : ∀ f ∈ s.days, f.1 ≤ log.floor
  named : log.floor = "" ∨ isDayFile log.floor = true
  current : ∀ day, log.current = some day → day = log.floor
  queue : ∀ r ∈ log.queue, S.read (S.write r.toJson) = some r.toJson

/-- A log as it should be: all its files are read, what they hold and the writer has yet to write
is all that was appended, and that is one numbered chain. -/
structure Site.Kept (s : Site S) : Prop where
  ordered : Fields.Ordered s.days
  named : ∀ f ∈ s.days, isDayFile f.1 = true
  disk : ∃ disk, readRecords S (s.legacy.getD [] ++ s.days.flatMap Prod.snd) = some disk ∧
    disk ++ s.queued = s.appended
  chain : Chained Record.prev S.hash genesis s.appended
  ids : Numbered s.appended
  log : ∀ log, s.log = some log → log.Follows s

/-- Where every file the log wrote to is a day's, all its lines are read, in order. -/
theorem Site.Kept.readAll (h : s.Kept)
    (hdisk : readRecords S (s.legacy.getD [] ++ s.days.flatMap Prod.snd) = some rs) :
    s.readAll = some rs := by
  have hdays : (s.days.map fun f => (f.1 ++ ".jsonl", f.2)).flatMap Prod.snd =
      s.days.flatMap Prod.snd := by
    rw [List.flatMap_map]
  have hlines : s.filesInOrder.flatMap Prod.snd =
      s.legacy.getD [] ++ s.days.flatMap Prod.snd := by
    unfold Site.filesInOrder
    rw [List.filter_eq_self.2 h.named, List.flatMap_append, hdays]
    cases s.legacy <;> simp
  unfold Site.readAll
  rw [readFiles_eq, hlines, hdisk]

/-- A log opened goes on where the one before left off. -/
theorem Site.Kept.openAt (h : s.Kept) (hclosed : s.log = none) :
    ∃ log, Audit.openAt s = some log ∧ log.queue = [] ∧ log.Follows s := by
  obtain ⟨disk, hdisk, happended⟩ := h.disk
  have hqueued : s.queued = [] := by
    unfold Site.queued
    rw [hclosed]
    rfl
  rw [hqueued, List.append_nil] at happended
  subst happended
  have hall := h.readAll hdisk
  have hlast : lastRecord s = some s.appended.getLast? := lastOf_reverse hall
  have hnewest : newestDay s = s.days.getLast?.map Prod.fst := by
    unfold newestDay
    rw [List.filter_eq_self.2 h.named]
  have hfloor : ∀ f ∈ s.days, f.1 ≤ (newestDay s).getD "" := by
    intro f hf
    rw [hnewest]
    cases hend : s.days.getLast? with
    | none => simp [List.getLast?_eq_none_iff.1 hend] at hf
    | some last => exact h.ordered.le_last hend hf
  have hnamed : (newestDay s).getD "" = "" ∨ isDayFile ((newestDay s).getD "") = true := by
    rw [hnewest]
    cases hend : s.days.getLast? with
    | none => exact .inl rfl
    | some last => exact .inr (h.named last (List.mem_of_getLast? hend))
  unfold Audit.openAt
  rw [hlast]
  cases hend : s.appended.getLast? with
  | none =>
    have hnil := List.getLast?_eq_none_iff.1 hend
    exact ⟨_, rfl, rfl, by rw [hnil]; rfl, by rw [hnil]; rfl, hfloor, hnamed,
      (fun _ h => nomatch h), (fun _ h => nomatch h)⟩
  | some r =>
    have hseq := seqAfter_eq hall h.ids hend
    refine ⟨⟨S.hash r, s.appended.length, [], (newestDay s).getD "", none⟩, ?_, rfl,
      ?_, rfl, hfloor, hnamed, (fun _ h => nomatch h), (fun _ h => nomatch h)⟩
    · simp only [bind, Option.bind, hseq, Option.map_some]
      rfl
    · simp [tip, hend]

/-- A record appended is chained to all before it. -/
theorem Site.Kept.append (h : s.Kept) {log : OpenLog} (hlog : s.log = some log) (e : Entry)
    (hread : S.read (S.write (log.next e).toJson) = some (log.next e).toJson) :
    (s.step (.append e)).Kept := by
  have hfollows := h.log log hlog
  have hstep : s.step (.append e) = { s with
      log := some { log with
        prev := S.hash (log.next e)
        seq := log.seq + 1
        queue := log.queue ++ [log.next e] }
      appended := s.appended ++ [log.next e] } := by
    unfold Site.step
    rw [hlog]
  obtain ⟨disk, hdisk, happended⟩ := h.disk
  rw [hstep]
  refine ⟨h.ordered, h.named, ⟨disk, hdisk, ?_⟩, ?_, ?_, fun log' hlog' => ?_⟩
  · rw [← happended]
    simp [Site.queued, hlog]
  · exact chained_concat.2 ⟨h.chain, hfollows.prev⟩
  · exact h.ids.concat (by rw [← hfollows.seq]; rfl)
  · obtain rfl := Option.some.inj hlog'
    refine ⟨(tip_concat S.hash genesis s.appended _).symm, ?_, hfollows.floor, hfollows.named,
      hfollows.current,
      fun r hr => ?_⟩
    · simp [hfollows.seq]
    · rcases List.mem_append.1 hr with hr | hr
      · exact hfollows.queue r hr
      · rw [List.mem_singleton.1 hr]
        exact hread

/-- The writer's next record goes after all that is on disk. -/
theorem Site.Kept.write (h : s.Kept) {log : OpenLog} (hlog : s.log = some log) {r : Record}
    {rest : List Record} (hqueue : log.queue = r :: rest)
    (hday : isDayFile (dayOf r.tsMs) = true ∨ dayOf r.tsMs < log.floor) :
    (s.step .write).Kept := by
  have hfollows := h.log log hlog
  obtain ⟨day, hrouted⟩ : ∃ day, log.routed r = day := ⟨_, rfl⟩
  -- the record goes to the newest day's file, or to a newer day's
  have hnewest : log.floor ≤ day ∧ isDayFile day = true := by
    rw [← hrouted]
    unfold OpenLog.routed
    split
    · next hlt =>
      refine ⟨le_refl _, hfollows.named.resolve_left fun hempty => ?_⟩
      rw [hempty, String.lt_iff_toList_lt] at hlt
      exact absurd hlt (List.not_lt_nil _)
    · next hge => exact ⟨not_lt.1 hge, hday.resolve_right hge⟩
  have hlast : ∀ f ∈ s.days, f.1 ≤ day := fun f hf => (hfollows.floor f hf).trans hnewest.1
  have hfloor : (if log.current = some day then log.floor else day) = day := by
    split
    · next hcurrent => exact (hfollows.current day hcurrent).symm
    · rfl
  obtain ⟨days, hdays⟩ : ∃ days, days =
      Fields.put day ((s.days.lookup day).getD [] ++ [S.write r.toJson]) s.days := ⟨_, rfl⟩
  have hstep : s.step .write = { s with
      days := days
      log := some { log with queue := rest, floor := day, current := some day } } := by
    unfold Site.step
    rw [hlog]
    dsimp only
    rw [hqueue]
    dsimp only
    rw [hrouted, hfloor, hdays]
  have hmem : ∀ f ∈ days, f.1 = day ∨ f ∈ s.days := by
    intro f hf
    rw [hdays] at hf
    rcases Fields.mem_put hf with heq | hf
    · exact .inl (by rw [heq])
    · exact .inr hf
  have hordered : Fields.Ordered days := by
    rw [hdays]
    exact h.ordered.put _ _
  have hlines : days.flatMap Prod.snd = s.days.flatMap Prod.snd ++ [S.write r.toJson] := by
    rw [hdays]
    exact h.ordered.flatMap_put hlast [S.write r.toJson]
  have hread : S.read (S.write r.toJson) = some r.toJson := by
    refine hfollows.queue r ?_
    rw [hqueue]
    exact List.mem_cons_self
  obtain ⟨disk, hdisk, happended⟩ := h.disk
  rw [hstep]
  refine ⟨hordered, fun f hf => ?_, ⟨disk ++ [r], ?_, ?_⟩, h.chain, h.ids, fun log' hlog' => ?_⟩
  · rcases hmem f hf with heq | hf
    · rw [heq]
      exact hnewest.2
    · exact h.named f hf
  · dsimp only
    rw [hlines, ← List.append_assoc, readRecords_append, hdisk, readRecords_write hread]
    rfl
  · rw [← happended, List.append_assoc]
    simp [Site.queued, hlog, hqueue]
  · obtain rfl := Option.some.inj hlog'
    refine ⟨hfollows.prev, hfollows.seq, fun f hf => ?_, .inr hnewest.2, fun day hday => ?_,
      fun r' hr' => ?_⟩
    · rcases hmem f hf with heq | hf
      · exact le_of_eq heq
      · exact hlast f hf
    · exact (Option.some.inj hday).symm
    · refine hfollows.queue r' ?_
      rw [hqueue]
      exact List.mem_cons_of_mem r hr'

theorem Site.Kept.step (h : s.Kept) {op : Op} (hop : s.enabled op) (hmeets : s.Meets op) :
    (s.step op).Kept := by
  cases op with
  | openLog =>
    obtain ⟨log, hopen, hqueue, hfollows⟩ := h.openAt hop
    have hstep : s.step .openLog = { s with log := some log } := by
      unfold Site.step
      rw [hopen]
    rw [hstep]
    obtain ⟨disk, hdisk, happended⟩ := h.disk
    refine ⟨h.ordered, h.named, ⟨disk, hdisk, ?_⟩, h.chain, h.ids, fun log' hlog' => ?_⟩
    · rw [← happended]
      have hclosed : s.log = none := hop
      simp [Site.queued, hqueue, hclosed]
    · obtain rfl : log = log' := Option.some.inj hlog'
      exact ⟨hfollows.prev, hfollows.seq, hfollows.floor, hfollows.named, hfollows.current,
        hfollows.queue⟩
  | append e =>
    obtain ⟨log, hlog⟩ := Option.isSome_iff_exists.1 hop
    exact h.append hlog e (hmeets log hlog)
  | write =>
    have hqueued : s.queued ≠ [] := hop
    unfold Site.queued at hqueued
    cases hlog : s.log with
    | none => simp [hlog] at hqueued
    | some log =>
      cases hqueue : log.queue with
      | nil => simp [hlog, hqueue] at hqueued
      | cons r rest => exact h.write hlog hqueue (hmeets log r rest hlog hqueue)
  | flush => exact h
  | close =>
    obtain ⟨disk, hdisk, happended⟩ := h.disk
    rw [hop.2] at happended
    exact ⟨h.ordered, h.named, ⟨disk, hdisk, happended⟩, h.chain, h.ids,
      fun log hlog => nomatch hlog⟩

/-! ### The walk passes -/

theorem verifyLines_ok {file : String} {lines : List S.Text} (hread : readRecords S lines = some rs)
    {prev : String} (hchain : Chained Record.prev S.hash prev rs) (i : Nat) (report : Report) :
    ∃ after, verifyLines S file i lines prev report = .ok (tip S.hash prev rs, after) ∧
      after.records = report.records + rs.length := by
  induction lines generalizing rs prev i report with
  | nil =>
    obtain rfl : [] = rs := Option.some.inj hread
    exact ⟨report, rfl, rfl⟩
  | cons line rest ih =>
    rw [readRecords] at hread
    rw [verifyLines]
    split at hread
    · next hblank =>
      rw [if_pos hblank]
      exact ih hread hchain _ _
    · next hblank =>
      rw [if_neg hblank]
      simp only [bind, Option.bind_eq_some_iff] at hread
      obtain ⟨r, hr, rest', hrest, hrs⟩ := hread
      obtain rfl : r :: rest' = rs := Option.some.inj hrs
      rw [hr]
      dsimp only
      rw [if_neg (not_not.2 hchain.1)]
      obtain ⟨after, hafter, hrecords⟩ := ih hrest hchain.2 (i + 1) { report with
        records := report.records + 1
        firstDay := report.firstDay.or (some (dayOf r.tsMs))
        lastDay := some (dayOf r.tsMs) }
      refine ⟨after, ?_, ?_⟩
      · rw [hafter, tip_cons]
      · rw [hrecords, List.length_cons]
        dsimp only
        omega

theorem verifyFiles_ok {files : List (LogFile S)} (hread : readFiles files = some rs)
    {prev : String} (hchain : Chained Record.prev S.hash prev rs) (report : Report) :
    ∃ after, verifyFiles files prev report = .ok after ∧
      after.records = report.records + rs.length := by
  induction files generalizing rs prev report with
  | nil =>
    obtain rfl : [] = rs := Option.some.inj hread
    exact ⟨report, rfl, rfl⟩
  | cons file rest ih =>
    simp only [readFiles, bind, Option.bind_eq_some_iff] at hread
    obtain ⟨first, hfirst, rest', hrest, hrs⟩ := hread
    obtain rfl : first ++ rest' = rs := Option.some.inj hrs
    obtain ⟨hchain, hmore⟩ := chained_append.1 hchain
    obtain ⟨mid, hmid, hrecords⟩ := verifyLines_ok hfirst hchain 0
      { report with files := report.files + 1 }
    obtain ⟨after, hafter, hcount⟩ := ih hrest hmore mid
    refine ⟨after, ?_, ?_⟩
    · rw [verifyFiles, hmid]
      exact hafter
    · rw [hcount, hrecords, List.length_append]
      dsimp only
      omega

/-- **A log on disk is one verifiable chain in the order of its appends**, in every state of
every run each of whose records is read back as written and goes to a file that is a day's: what
is read and what the writer has yet to write is all that was appended, numbered throughout, and
the walk passes and counts what is read. -/
theorem log_kept {legacy : Option (List S.Text)}
    (hread : readRecords S (legacy.getD []) = some rs)
    (hchain : Chained Record.prev S.hash genesis rs) (hids : Numbered rs)
    (hrun : (logSystem S).Runs Site.Meets ⟨legacy, [], none, rs⟩ s) :
    ∃ disk report, s.readAll = some disk ∧ disk ++ s.queued = s.appended ∧ Numbered s.appended ∧
      s.verifyDir = .ok report ∧ report.records = disk.length := by
  have hkept : s.Kept := hrun.invariant (I := Site.Kept)
    ⟨List.Pairwise.nil, by simp, ⟨rs, by simpa using hread, List.append_nil _⟩, hchain, hids,
      fun log hlog => nomatch hlog⟩
    fun _ _ h hop hmeets => h.step hop hmeets
  obtain ⟨disk, hdisk, happended⟩ := hkept.disk
  have hall := hkept.readAll hdisk
  have hchained : Chained Record.prev S.hash genesis disk :=
    (chained_append.1 (happended ▸ hkept.chain)).1
  obtain ⟨report, hreport, hrecords⟩ := verifyFiles_ok hall hchained {}
  exact ⟨disk, report, hall, happended, hkept.ids, hreport, by simpa using hrecords⟩

/-! ### A record of today, and one of the year 10000 -/

def plainLines : LineScribe :=
  { plainScribe with blank := fun _ => false, write_blank := fun _ => rfl }

/-- A log opened on an empty directory. -/
def freshSite : Site plainLines :=
  ⟨none, [], some ⟨genesis, 0, [], "", none⟩, []⟩

@[grind =]
def login (tsMs : UInt64) : Entry :=
  ⟨tsMs, ⟨"ana", "", "", "", none⟩, ⟨"", "", ""⟩, "login", .null, "ok"⟩

/-- A login is appended there, and written. -/
def loggedIn (tsMs : UInt64) : Site plainLines :=
  (freshSite.step (.append (login tsMs))).step .write

theorem loggedIn_runs {ok : Site plainLines → Op → Prop} (tsMs : UInt64)
    (hopen : ok ⟨none, [], none, []⟩ .openLog) (happend : ok freshSite (.append (login tsMs)))
    (hwrite : ok (freshSite.step (.append (login tsMs))) .write) :
    (logSystem plainLines).Runs ok ⟨none, [], none, []⟩ (loggedIn tsMs) := by
  have hfresh : (logSystem plainLines).Runs ok ⟨none, [], none, []⟩ freshSite :=
    System.Runs.tail (a := Op.openLog) .refl rfl hopen
  have happended : (logSystem plainLines).Runs ok ⟨none, [], none, []⟩
      (freshSite.step (.append (login tsMs))) :=
    System.Runs.tail (a := Op.append (login tsMs)) hfresh rfl happend
  exact System.Runs.tail (a := Op.write) happended (List.cons_ne_nil _ _) hwrite

/-- A login on 21 September 2026. -/
def today : UInt64 := 1790000000000

theorem log_kept_plain : ∃ disk report, (loggedIn today).readAll = some disk ∧
    disk ++ (loggedIn today).queued = (loggedIn today).appended ∧
    Numbered (loggedIn today).appended ∧ (loggedIn today).verifyDir = .ok report ∧
    report.records = disk.length := by
  refine log_kept (rfl : readRecords plainLines ((none : Option (List Json)).getD []) = some [])
    trivial rfl (loggedIn_runs today trivial ?_ ?_)
  · intro log hlog
    rfl
  · intro log r rest hlog hqueue
    obtain rfl := Option.some.inj hlog
    obtain ⟨rfl, -⟩ := List.cons.inj hqueue
    exact .inl (by decide +kernel)

/-- The first moment of the year 10000. -/
def far : UInt64 := 253402300800000

/-- A record of the year 10000 in a fresh log is written to a file that is not read. -/
theorem far_record_lost :
    (logSystem plainLines).Runs (fun _ _ => True) ⟨none, [], none, []⟩ (loggedIn far) ∧
      (loggedIn far).queued = [] ∧ (loggedIn far).appended.length = 1 ∧
      (loggedIn far).readAll = some [] := by
  refine ⟨loggedIn_runs far trivial trivial trivial, rfl, rfl, ?_⟩
  have hname : isDayFile (dayOf far) = false := by decide +kernel
  have hdays : ∃ lines, (loggedIn far).days = [(dayOf far, lines)] := by
    refine ⟨[(freshSite.log.map fun log => log.next (login far)).elim .null Record.toJson], ?_⟩
    have hfloor : ¬dayOf far < "" := by
      rw [String.lt_iff_toList_lt]
      exact List.not_lt_nil _
    simp only [loggedIn, Site.step, freshSite, OpenLog.routed, OpenLog.next, login,
      List.nil_append, if_neg hfloor]
    rfl
  obtain ⟨lines, hdays⟩ := hdays
  unfold Site.readAll Site.filesInOrder
  rw [hdays, List.filter_cons_of_neg (by simp [hname])]
  rfl

end Audit

end LocalSpace
