import LocalSpace.Library.Runs

/-!
# An answer that is stopped, and a model that falls silent

`stream.rs`: the thread that reads an answer holds its socket where a stop finds it (`Stop::hold`),
sends the question, and reads in short waits (`Watched::read`), between which it looks whether it
was stopped and for how long nothing came. `Stop::stop` may come in between, from any thread and any
number of times. What the socket gives, and what the bytes come to, is data of the step.
-/

namespace LocalSpace.Watching

/-- How long a model may be silent, in milliseconds. -/
structure Silence where
  beforeFirstWord : ℕ
  betweenWords : ℕ

def Silence.answer : Silence :=
  ⟨120 * 1000, 60 * 1000⟩

inductive Cut where
  | stopped
  | silentBeforeFirstWord (secs : ℕ)
  | silentBetweenWords (secs : ℕ)
  | lost
  deriving DecidableEq

/-- The kinds of `io::Error` that are told apart: `TimedOut` with `WouldBlock`, and the others. -/
inductive Kind where
  | timedOut
  | other
  deriving DecidableEq

inductive Error where
  | cut (cut : Cut)
  | io (kind : Kind)
  | said (text : String)
  deriving DecidableEq

/-- What an error while reading means. -/
@[grind =]
def cutOr (error : Error) (asked words : Bool) (silence : Silence) : Error :=
  if asked then .cut .stopped
  else
    match error with
    | .cut cut => .cut cut
    | .io .timedOut =>
      if words then .cut (.silentBetweenWords (silence.betweenWords / 1000))
      else .cut (.silentBeforeFirstWord (silence.beforeFirstWord / 1000))
    | .io .other => .cut .lost
    | .said text => .said text

/-- What is read from the socket: the head, a refusal's body, or the answer's events. -/
inductive Phase where
  | head
  | refusal (text : String)
  | events
  deriving DecidableEq

/-- Where the reading thread is, before its next access. -/
inductive Pc where
  | connecting
  | holding
  /-- In `hold`, with the socket kept and its lock taken. -/
  | locked
  | unlocking (asked : Bool)
  | sending
  /-- Was it stopped? -/
  | looking
  | waiting
  /-- Between two reads of the socket. -/
  | reading
  | lettingGo (answer : Except Error Unit)
  | returned (answer : Except Error Unit)
  deriving DecidableEq

structure State where
  pc : Pc
  phase : Phase
  asked : Bool
  /-- The calls of `stop` that have asked, and not yet looked for a socket. -/
  stops : ℕ
  /-- Some call of `stop` has returned. -/
  stopped : Bool
  held : Bool
  /-- The socket was shut down. -/
  shut : Bool
  words : Bool
  /-- The question was sent. -/
  sent : Bool
  began : ℕ
  last : ℕ
  now : ℕ
  /-- The waits begun so far, and the accesses made. -/
  waits : ℕ
  made : ℕ

@[grind =]
def start (now : ℕ) : State :=
  ⟨.connecting, .head, false, 0, false, false, false, false, false, 0, 0, now, 0, 0⟩

/-- What a call gives, or what the bytes that came amount to. -/
inductive Found where
  | ok
  | failed (kind : Kind)
  /-- The head is read, and what the model is refused with unless it is 200. -/
  | head (refusal : Option String)
  /-- A line of the events, with a word in it or without. -/
  | line (word : Bool)
  /-- More bytes are wanted. -/
  | more
  /-- The body is over, or says that it is. -/
  | last (finished : Bool)
  | wrong (text : String)

namespace State

/-- A silence longer than allowed. -/
@[grind =]
def silent (s : State) (silence : Silence) : Bool :=
  if s.words then decide (silence.betweenWords ≤ s.now - s.last)
  else decide (silence.beforeFirstWord ≤ s.now - s.began ∧
    min silence.betweenWords silence.beforeFirstWord ≤ s.now - s.last)

def goes (s : State) (pc : Pc) : State :=
  { s with pc := pc, made := s.made + 1 }

def tells (s : State) (error : Error) (words : Bool) (silence : Silence) : State :=
  s.goes (.lettingGo (.error (cutOr error s.asked words silence)))

/-- A read that failed: nobody asks how a refusal's body ended. -/
@[grind =]
def fails (s : State) (kind : Kind) (silence : Silence) : State :=
  match s.phase with
  | .head => s.tells (.io kind) false silence
  | .refusal text => s.goes (.lettingGo (.error (.said text)))
  | .events => s.tells (.io kind) s.words silence

end State

/-- Between two reads of the socket: what the bytes come to. -/
def readOn (silence : Silence) (s : State) (found : Found) : State :=
  match found with
  | .more => s.goes .looking
  | .failed _ => s.fails .other silence
  -- any status but 200 is a refusal, whose body is read for what it says
  | .head refusal =>
    if s.phase = .head then { s.goes .reading with phase := refusal.elim .events .refusal } else s
  | .line word =>
    if s.phase = .events then
      if s.asked then s.tells (.cut .stopped) s.words silence
      else { s.goes .reading with words := s.words || word }
    else s
  | .wrong text => if s.phase = .events then s.tells (.said text) s.words silence else s
  | .last finished =>
    match s.phase with
    | .head => s
    | .refusal text => s.goes (.lettingGo (.error (.said text)))
    | .events =>
      if finished && !s.asked then s.goes (.lettingGo (.ok ()))
      else s.tells (.cut .lost) s.words silence
  | .ok => s

/-- The reading thread's next access. -/
def reader (silence : Silence) (s : State) (found : Found) : State :=
  match s.pc with
  | .connecting =>
    match found with
    | .ok => s.goes .holding
    | .failed kind => s.goes (.returned (.error (.io kind)))
    | _ => s
  | .holding =>
    match found with
    | .ok => { s.goes .locked with held := true }
    | .failed kind => s.goes (.returned (.error (.io kind)))
    | _ => s
  | .locked => s.goes (.unlocking s.asked)
  | .unlocking asked => { s.goes .sending with shut := s.shut || asked }
  | .sending =>
    match found with
    | .ok => { s.goes .reading with sent := true, began := s.now, last := s.now }
    | .failed kind => s.tells (.io kind) false silence
    | _ => s
  -- not `Interrupted`, on which the standard readers try again
  | .looking =>
    if s.asked then s.fails .other silence else { s.goes .waiting with waits := s.waits + 1 }
  | .waiting =>
    match found with
    | .ok => { s.goes .reading with last := s.now }
    -- a wait is over: the silence so far is looked at, and the next one begins
    | .failed .timedOut =>
      if s.silent silence then s.fails .timedOut silence else s.goes .looking
    | .failed .other => s.fails .other silence
    | _ => s
  | .reading => readOn silence s found
  | .lettingGo answer => { s.goes (.returned answer) with held := false }
  | .returned _ => s

/-- The reading thread has the socket's lock. -/
def Pc.locks : Pc → Bool
  | .locked | .unlocking _ => true
  | _ => false

inductive Act where
  | reader (found : Found)
  /-- `stop` asks, -/
  | ask
  /-- and shuts the socket that is held, with its lock. -/
  | shut
  | tick (d : ℕ)

def step (silence : Silence) (s : State) : Act → State
  | .reader found => reader silence s found
  | .ask => { s with asked := true, stops := s.stops + 1 }
  | .shut => { s with stops := s.stops - 1, stopped := true, shut := s.shut || s.held }
  | .tick d => { s with now := s.now + d }

def Enabled (s : State) : Act → Prop
  | .shut => 0 < s.stops ∧ s.pc.locks = false
  | .reader _ | .ask | .tick _ => True

instance Enabled.decidable (s : State) : (a : Act) → Decidable (Enabled s a)
  | .shut => inferInstanceAs (Decidable (0 < s.stops ∧ s.pc.locks = false))
  | .reader _ | .ask | .tick _ => .isTrue trivial

def system (silence : Silence) : Library.System State Act :=
  ⟨step silence, Enabled⟩

/-! ### What an access may do -/

/-- How the reading of an answer may end. -/
inductive Ends (silence : Silence) (s : State) : Except Error Unit → Prop
  | unsent (kind : Kind) (hpc : s.pc = .sending) :
      Ends silence s (.error (cutOr (.io kind) s.asked false silence))
  | refused (text : String) (hphase : s.phase = .refusal text) :
      Ends silence s (.error (.said text))
  | silent (words : Bool) (hpc : s.pc = .waiting) (hsilent : s.silent silence = true)
      (hwords : words = true → s.words = true) (hphase : s.phase = .events → words = s.words) :
      Ends silence s (.error (cutOr (.io .timedOut) s.asked words silence))
  | broken (error : Error) (words : Bool)
      (herror : error = .io .other ∨ error = .cut .lost ∨ error = .cut .stopped ∨
        ∃ text, error = .said text) : Ends silence s (.error (cutOr error s.asked words silence))
  | whole (hasked : s.asked = false) : Ends silence s (.ok ())

/-- What an access of the reading thread may do. -/
inductive Access (silence : Silence) (s : State) : State → Prop
  | none : Access silence s s
  | connected (hpc : s.pc = .connecting) : Access silence s (s.goes .holding)
  | unconnected (kind : Kind) (hpc : s.pc = .connecting ∨ s.pc = .holding) :
      Access silence s (s.goes (.returned (.error (.io kind))))
  | kept (hpc : s.pc = .holding) : Access silence s { s.goes .locked with held := true }
  | seen (hpc : s.pc = .locked) : Access silence s (s.goes (.unlocking s.asked))
  | unlocked (asked : Bool) (hpc : s.pc = .unlocking asked) :
      Access silence s { s.goes .sending with shut := s.shut || asked }
  | sent (hpc : s.pc = .sending) :
      Access silence s { s.goes .reading with sent := true, began := s.now, last := s.now }
  | waited (hpc : s.pc = .looking) (hasked : s.asked = false) :
      Access silence s { s.goes .waiting with waits := s.waits + 1 }
  | got (hpc : s.pc = .waiting) : Access silence s { s.goes .reading with last := s.now }
  | again (hpc : s.pc = .waiting ∨ s.pc = .reading) : Access silence s (s.goes .looking)
  | headed (phase : Phase) (hpc : s.pc = .reading) (hhead : s.phase = .head)
      (hphase : phase ≠ .head) : Access silence s { s.goes .reading with phase := phase }
  | heard (word : Bool) (hpc : s.pc = .reading) (hphase : s.phase = .events)
      (hasked : s.asked = false) :
      Access silence s { s.goes .reading with words := s.words || word }
  | ended (answer : Except Error Unit)
      (hpc : s.pc = .sending ∨ s.pc = .looking ∨ s.pc = .waiting ∨ s.pc = .reading)
      (hends : Ends silence s answer) : Access silence s (s.goes (.lettingGo answer))
  | letGo (answer : Except Error Unit) (hpc : s.pc = .lettingGo answer) :
      Access silence s { s.goes (.returned answer) with held := false }

theorem fails_other (silence : Silence) (s : State)
    (hpc : s.pc = .looking ∨ s.pc = .waiting ∨ s.pc = .reading) :
    Access silence s (s.fails .other silence) := by
  rw [State.fails]
  split
  · exact .ended _ (.inr hpc) (.broken _ _ (.inl rfl))
  · next text hphase => exact .ended _ (.inr hpc) (.refused text hphase)
  · exact .ended _ (.inr hpc) (.broken _ _ (.inl rfl))

theorem fails_silent {silence : Silence} {s : State} (hpc : s.pc = .waiting)
    (hsilent : s.silent silence = true) : Access silence s (s.fails .timedOut silence) := by
  rw [State.fails]
  split
  · next hphase =>
    exact .ended _ (.inr (.inr (.inl hpc))) (.silent false hpc hsilent
      (fun h => absurd h Bool.false_ne_true) (by simp [hphase]))
  · next text hphase => exact .ended _ (.inr (.inr (.inl hpc))) (.refused text hphase)
  · exact .ended _ (.inr (.inr (.inl hpc))) (.silent s.words hpc hsilent id fun _ => rfl)

theorem readOn_access (silence : Silence) (s : State) (found : Found) (hpc : s.pc = .reading) :
    Access silence s (readOn silence s found) := by
  have hended : s.pc = .sending ∨ s.pc = .looking ∨ s.pc = .waiting ∨ s.pc = .reading :=
    .inr (.inr (.inr hpc))
  cases found with
  | ok => exact .none
  | more => exact .again (.inr hpc)
  | failed kind => exact fails_other silence s (.inr (.inr hpc))
  | head refusal =>
    rw [readOn]
    split
    · next hhead => exact .headed _ hpc hhead (by cases refusal <;> simp)
    · exact .none
  | line word =>
    rw [readOn]
    split
    · next hphase =>
      split
      · exact .ended _ hended (.broken _ _ (.inr (.inr (.inl rfl))))
      · next hasked => exact .heard word hpc hphase (Bool.eq_false_of_not_eq_true hasked)
    · exact .none
  | wrong text =>
    rw [readOn]
    split
    · exact .ended _ hended (.broken _ _ (.inr (.inr (.inr ⟨text, rfl⟩))))
    · exact .none
  | last finished =>
    rw [readOn]
    split
    · exact .none
    · next text hphase => exact .ended _ hended (.refused text hphase)
    · split
      · next hwhole =>
        rw [Bool.and_eq_true, Bool.not_eq_true'] at hwhole
        exact .ended _ hended (.whole hwhole.2)
      · exact .ended _ hended (.broken _ _ (.inr (.inl rfl)))

/-- **What an access may do**, whatever the socket gives. -/
theorem reader_access (silence : Silence) (s : State) (found : Found) :
    Access silence s (reader silence s found) := by
  unfold reader
  split
  · next hpc =>
    split
    · exact .connected hpc
    · exact .unconnected _ (.inl hpc)
    · exact .none
  · next hpc =>
    split
    · exact .kept hpc
    · exact .unconnected _ (.inr hpc)
    · exact .none
  · next hpc => exact .seen hpc
  · next asked hpc => exact .unlocked asked hpc
  · next hpc =>
    split
    · exact .sent hpc
    · next kind => exact .ended _ (.inl hpc) (.unsent kind hpc)
    · exact .none
  · next hpc =>
    split
    · exact fails_other silence s (.inl hpc)
    · next hasked => exact .waited hpc (Bool.eq_false_of_not_eq_true hasked)
  · next hpc =>
    split
    · exact .got hpc
    · split
      · next hsilent => exact fails_silent hpc hsilent
      · exact .again (.inl hpc)
    · exact fails_other silence s (.inr (.inl hpc))
    · exact .none
  · next hpc => exact readOn_access silence s found hpc
  · next answer hpc => exact .letGo answer hpc
  · exact .none

instance system.decidable (silence : Silence) (s : State) (a : Act) :
    Decidable ((system silence).enabled s a) :=
  Enabled.decidable s a

section Runs

variable {silence : Silence} {s t : State} {a : Act} {now : ℕ}

/-! ### A stop shuts the socket -/

/-- What holds of the socket, whoever comes first. -/
structure Held (s : State) : Prop where
  asked : s.stopped = true ∨ 0 < s.stops → s.asked = true
  kept : s.pc.locks = true → s.held = true
  before : s.pc = .connecting ∨ s.pc = .holding → s.held = false
  shut : s.stopped = true → s.held = true →
    s.shut = true ∨ s.pc = .locked ∨ s.pc = .unlocking true

theorem Held.start : Held (start now) := by
  constructor <;> simp [Watching.start, Pc.locks]

theorem Held.access (hs : Held s) (h : Access silence s t) : Held t := by
  obtain ⟨hasked, hkept, hbefore, hshut⟩ := hs
  cases h with
  | none => exact ⟨hasked, hkept, hbefore, hshut⟩
  | kept hpc =>
    exact ⟨hasked, fun _ => rfl, by simp [State.goes], fun _ _ => .inr (.inl rfl)⟩
  | seen hpc =>
    refine ⟨hasked, fun _ => hkept (by rw [hpc]; rfl), by simp [State.goes], fun hstopped _ => ?_⟩
    -- a stop that has returned had asked before, so this look finds it
    exact .inr (.inr (congrArg Pc.unlocking (hasked (.inl hstopped))))
  | unlocked asked hpc =>
    refine ⟨hasked, by simp [State.goes, Pc.locks], by simp [State.goes], fun hstopped hheld => ?_⟩
    rcases hshut hstopped hheld with hshut | hlocked | hunlocking
    · exact .inl (by simp [hshut])
    · simp [hpc] at hlocked
    · rw [hpc] at hunlocking
      exact .inl (by simp [Pc.unlocking.inj hunlocking])
  | letGo answer hpc =>
    exact ⟨hasked, by simp [State.goes, Pc.locks], fun _ => rfl, by simp [State.goes]⟩
  | connected hpc | unconnected _ hpc | sent hpc | waited hpc _ | got hpc | again hpc
  | headed _ hpc _ _ | heard _ hpc _ _ | ended _ hpc _ =>
    constructor
    all_goals grind [State.goes, Pc.locks]

theorem Held.step (hs : Held s) (ha : Enabled s a) : Held (step silence s a) := by
  cases a with
  | reader found => exact hs.access (reader_access silence s found)
  | ask => exact ⟨fun _ => rfl, hs.kept, hs.before, hs.shut⟩
  | tick d => exact ⟨hs.asked, hs.kept, hs.before, hs.shut⟩
  | shut =>
    obtain ⟨hstops, hfree⟩ := ha
    refine ⟨fun _ => hs.asked (.inr hstops), hs.kept, hs.before, fun _ hheld => .inl ?_⟩
    rw [Watching.step, Bool.or_eq_true]
    exact .inr hheld

/-! ### A stop is heard -/

/-- How many accesses are left once a stop is asked for, at the most. -/
@[grind =]
def left (s : State) : ℕ :=
  match s.pc with
  | .connecting => 10
  | .holding => 9
  | .locked => 8
  | .unlocking _ => 7
  | .sending => 6
  | .waiting => 5
  | .reading => if s.phase = .head then 4 else 3
  | .looking => 2
  | .lettingGo _ => 1
  | .returned _ => 0

/-- What the reading thread has to tell. -/
@[grind =]
def Pc.answer : Pc → Option (Except Error Unit)
  | .lettingGo answer | .returned answer => some answer
  | _ => none

/-- A stop was asked for, and nothing is told that is not a stop's, where events are read. -/
structure Stopping (events : Bool) (s : State) : Prop where
  asked : s.asked = true
  none : s.pc.answer ≠ some (.ok ())
  events : events = true → s.phase = .events ∧
    (s.pc = .waiting ∨ s.pc = .reading ∨ s.pc = .looking ∨
      s.pc.answer = some (.error (.cut .stopped)))

theorem cutOr_asked {error : Error} {asked words : Bool} (h : asked = true) :
    cutOr error asked words silence = .cut .stopped := by
  simp [cutOr, h]

/-- A silence is told of a read that timed out, or was told before. -/
theorem cutOr_silent {error : Error} {asked words : Bool} {n : ℕ} :
    (cutOr error asked words silence = .cut (.silentBetweenWords n) →
      error = .cut (.silentBetweenWords n) ∨ error = .io .timedOut ∧ words = true) ∧
    (cutOr error asked words silence = .cut (.silentBeforeFirstWord n) →
      error = .cut (.silentBeforeFirstWord n) ∨ error = .io .timedOut ∧ words = false) := by
  rcases error with cut | kind | text
  · cases asked <;> simp [cutOr]
  · cases kind <;> cases asked <;> cases words <;> simp [cutOr]
  · cases asked <;> simp [cutOr]

theorem Ends.of_asked {answer : Except Error Unit} (h : Ends silence s answer)
    (hasked : s.asked = true) :
    answer = .error (.cut .stopped) ∨
      ∃ text, s.phase = .refusal text ∧ answer = .error (.said text) := by
  cases h with
  | unsent kind hpc => exact .inl (by rw [cutOr_asked hasked])
  | refused text hphase => exact .inr ⟨text, hphase, rfl⟩
  | silent words hpc hsilent hwords hphase => exact .inl (by rw [cutOr_asked hasked])
  | broken error words herror => exact .inl (by rw [cutOr_asked hasked])
  | whole hunasked => simp [hasked] at hunasked

theorem Stopping.access {events : Bool} (hs : Stopping events s) (h : Access silence s t) :
    Stopping events t ∧ t.waits = s.waits ∧ t.made + left t ≤ s.made + left s := by
  obtain ⟨hasked, hnone, hevents⟩ := hs
  cases h with
  | none => exact ⟨⟨hasked, hnone, hevents⟩, rfl, le_rfl⟩
  -- no wait begins and no line is heard once a stop is asked for
  | waited hpc hunasked => simp [hasked] at hunasked
  | heard word hpc hphase hunasked => simp [hasked] at hunasked
  | ended answer hpc hends =>
    have hanswer := hends.of_asked hasked
    refine ⟨⟨hasked, ?_, fun h => ?_⟩, rfl, ?_⟩
    · rcases hanswer with rfl | ⟨text, -, rfl⟩ <;> simp [State.goes, Pc.answer]
    · obtain ⟨hphase, -⟩ := hevents h
      rcases hanswer with rfl | ⟨text, hrefusal, -⟩
      · exact ⟨hphase, .inr (.inr (.inr rfl))⟩
      · simp [hphase] at hrefusal
    · grind [State.goes]
  | connected hpc | unconnected _ hpc | kept hpc | seen hpc | unlocked _ hpc | sent hpc | got hpc
  | again hpc | headed _ hpc _ _ | letGo _ hpc =>
    refine ⟨⟨hasked, ?_, fun h => ?_⟩, rfl, ?_⟩
    all_goals grind [State.goes]

theorem Stopping.step {events : Bool} (hs : Stopping events s) :
    Stopping events (step silence s a) ∧ (step silence s a).waits = s.waits ∧
      (step silence s a).made + left (step silence s a) ≤ s.made + left s := by
  cases a with
  | reader found => exact hs.access (reader_access silence s found)
  | ask => exact ⟨⟨rfl, hs.none, hs.events⟩, rfl, le_rfl⟩
  | shut | tick d => exact ⟨⟨hs.asked, hs.none, hs.events⟩, rfl, le_rfl⟩

/-! ### Why an answer is told to be silent -/

/-- What the silence was that is told of. -/
def Told (silence : Silence) (s : State) : Cut → Prop
  | .silentBetweenWords _ => s.words = true ∧ silence.betweenWords ≤ s.now - s.last
  | .silentBeforeFirstWord _ => s.words = false ∧
      (s.sent = false ∨ silence.beforeFirstWord ≤ s.now - s.began ∧
        min silence.betweenWords silence.beforeFirstWord ≤ s.now - s.last)
  | .stopped | .lost => True

theorem Told.tick {cut : Cut} (h : Told silence s cut) (d : ℕ) :
    Told silence { s with now := s.now + d } cut := by
  cases cut <;> grind [Told]

structure Quiet (silence : Silence) (s : State) : Prop where
  words : s.words = true → s.phase = .events
  unsent : s.pc = .connecting ∨ s.pc = .holding ∨ s.pc.locks = true ∨ s.pc = .sending →
    s.sent = false ∧ s.phase = .head
  told : ∀ cut, s.pc.answer = some (.error (.cut cut)) → Told silence s cut

theorem Quiet.start : Quiet silence (start now) := by
  constructor <;> simp [Watching.start, Pc.answer]

theorem Quiet.ended (hs : Quiet silence s) {answer : Except Error Unit}
    (h : Ends silence s answer) {cut : Cut} (hcut : answer = .error (.cut cut)) :
    Told silence s cut := by
  cases h with
  | refused text hphase => cases hcut
  | whole hasked => cases hcut
  | unsent kind hpc =>
    have hunsent := hs.unsent (.inr (.inr (.inr hpc)))
    cases cut with
    | silentBetweenWords n =>
      rcases cutOr_silent.1 (Except.error.inj hcut) with h | ⟨-, h⟩ <;> cases h
    -- the question was not sent, and nothing was waited for
    | silentBeforeFirstWord n =>
      refine ⟨Bool.eq_false_of_not_eq_true fun hwords => ?_, .inl hunsent.1⟩
      simp [hs.words hwords] at hunsent
    | stopped | lost => trivial
  | silent words hpc hsilent hwords hphase =>
    rw [State.silent] at hsilent
    cases cut with
    | silentBetweenWords n =>
      rcases cutOr_silent.1 (Except.error.inj hcut) with h | ⟨-, h⟩
      · cases h
      · rw [if_pos (hwords h), decide_eq_true_eq] at hsilent
        exact ⟨hwords h, hsilent⟩
    | silentBeforeFirstWord n =>
      rcases cutOr_silent.2 (Except.error.inj hcut) with h | ⟨-, h⟩
      · cases h
      · have hnone : ¬s.words = true := fun hword => by
          rw [hphase (hs.words hword), hword] at h
          cases h
        rw [if_neg hnone, decide_eq_true_eq] at hsilent
        exact ⟨Bool.eq_false_of_not_eq_true hnone, .inr hsilent⟩
    | stopped | lost => trivial
  | broken error words herror =>
    cases cut with
    | silentBetweenWords n =>
      rcases cutOr_silent.1 (Except.error.inj hcut) with rfl | ⟨rfl, -⟩ <;> simp at herror
    | silentBeforeFirstWord n =>
      rcases cutOr_silent.2 (Except.error.inj hcut) with rfl | ⟨rfl, -⟩ <;> simp at herror
    | stopped | lost => trivial

theorem Quiet.access (hs : Quiet silence s) (h : Access silence s t) : Quiet silence t := by
  have hs' := hs
  obtain ⟨hwords, hunsent, htold⟩ := hs
  cases h with
  | none => exact hs'
  | ended answer hpc hends =>
    exact ⟨hwords, by simp [State.goes, Pc.locks], fun cut h => hs'.ended hends (Option.some.inj h)⟩
  | letGo answer hpc =>
    exact ⟨hwords, by simp [State.goes, Pc.locks], fun cut h => htold cut (by rw [hpc]; exact h)⟩
  | connected hpc | unconnected _ hpc | kept hpc | seen hpc | unlocked _ hpc | sent hpc
  | waited hpc _ | got hpc | again hpc | headed _ hpc _ _ | heard _ hpc _ _ =>
    constructor
    all_goals grind [State.goes, Pc.locks]

theorem Quiet.step (hs : Quiet silence s) : Quiet silence (step silence s a) := by
  cases a with
  | reader found => exact hs.access (reader_access silence s found)
  | ask | shut => exact ⟨hs.words, hs.unsent, hs.told⟩
  | tick d => exact ⟨hs.words, hs.unsent, fun cut h => (hs.told cut h).tick d⟩

end Runs

/-- **A stop is heard, wherever it comes**: once some call of `stop` has returned, the socket held
is shut, unless `hold` itself is about to shut it; and from where a stop is asked for on, no further
wait for the model is begun, ten accesses more at the most end the reading, it ends without an
answer, and with that of a stop where the answer's events were being read. -/
theorem stop_heard (silence : Silence) (now : ℕ) (s t : State)
    (hrun : (system silence).Runs (fun _ _ => True) (start now) s) (hasked : s.asked = true)
    (hgoing : s.pc.answer = none)
    (hafter : (system silence).Runs (fun _ _ => True) s t) :
    (t.stopped = true → t.held = true → t.pc.locks = false → t.shut = true) ∧
      t.waits = s.waits ∧ t.made ≤ s.made + 10 ∧ t.pc ≠ .returned (.ok ()) ∧
      (s.phase = .events →
        ∀ answer, t.pc = .returned answer → answer = .error (.cut .stopped)) := by
  have hheld : Held t := (hrun.trans hafter).invariant .start fun _ _ hs hcame _ => hs.step hcame
  have hleft : left s ≤ 10 := by grind
  have hquiet : Quiet silence s := hrun.invariant .start fun _ _ hs _ _ => hs.step
  have hnone : s.pc.answer ≠ some (.ok ()) := by simp [hgoing]
  have hkept : ∀ events, Stopping events s → Stopping events t ∧ t.waits = s.waits ∧
      t.made + left t ≤ s.made + left s := fun events hs =>
    hafter.invariant (I := fun u => Stopping events u ∧ u.waits = s.waits ∧
      u.made + left u ≤ s.made + left s) ⟨hs, rfl, le_rfl⟩ fun u a hu _ _ => by
        obtain ⟨hstopping, hwaits, hmade⟩ := hu.1.step
        exact ⟨hstopping, hwaits.trans hu.2.1, hmade.trans hu.2.2⟩
  obtain ⟨hstopping, hwaits, hmade⟩ :=
    hkept false ⟨hasked, hnone, fun h => absurd h Bool.false_ne_true⟩
  refine ⟨fun hstopped hkeeps hfree => ?_, hwaits, by omega, fun hok => ?_,
    fun hphase answer hanswer => ?_⟩
  · rcases hheld.shut hstopped hkeeps with hshut | hlocked | hunlocking
    · exact hshut
    · simp [hlocked, Pc.locks] at hfree
    · simp [hunlocking, Pc.locks] at hfree
  · exact hstopping.none (by rw [hok]; rfl)
  · have hpc : s.pc = .waiting ∨ s.pc = .reading ∨ s.pc = .looking := by
      have hunsent := hquiet.unsent
      grind [Pc.locks]
    obtain ⟨hevents, -⟩ := hkept true
      ⟨hasked, hnone, fun _ => ⟨hphase, by rcases hpc with h | h | h <;> simp [h]⟩⟩
    have hlast := (hevents.events rfl).2
    simpa [hanswer, Pc.answer] using hlast

/-- **Why an answer is told to be silent**: after a word, nothing came for as long as is allowed
between words; before one, the question was sent as long ago as is allowed and nothing came for as
long as between words, or the question could not be sent in time, told in the same words. -/
theorem silence_told (silence : Silence) (now : ℕ) (t : State)
    (hrun : (system silence).Runs (fun _ _ => True) (start now) t) (cut : Cut)
    (hcut : t.pc = .returned (.error (.cut cut))) : Told silence t cut := by
  have hquiet : Quiet silence t := hrun.invariant .start fun _ _ hs _ _ => hs.step
  exact hquiet.told cut (by rw [hcut]; rfl)

/-! ### A stop while the model writes, and a question that is not sent -/

/-- The question is sent, the head read, and the model's next bytes are waited for. -/
def writing : State :=
  (system .answer).run (start 0) (([.ok, .ok, .ok, .ok, .ok, .head none, .more, .ok] :
    List Found).map .reader)

/-- A stop there shuts the socket. -/
theorem writing_stopped : ((system .answer).run (step .answer writing .ask)
    [.reader .ok, .shut]).shut = true := by
  have hwriting : (system .answer).Runs (fun _ _ => True) (start 0) writing :=
    Library.System.runs_of_list (by decide)
  have hrun : (system .answer).Runs (fun _ _ => True) (start 0) (step .answer writing .ask) :=
    hwriting.tail (a := Act.ask) trivial trivial
  have hafter : (system .answer).Runs (fun _ _ => True) (step .answer writing .ask)
      ((system .answer).run (step .answer writing .ask) [.reader .ok, .shut]) :=
    Library.System.runs_of_list (by decide)
  exact (stop_heard .answer 0 _ _ hrun rfl rfl hafter).1 rfl rfl rfl

/-- A question that cannot be sent. -/
def unsent : State :=
  (system .answer).run (start 0) (([.ok, .ok, .ok, .ok, .failed .timedOut, .ok] :
    List Found).map .reader)

/-- No time has gone by, and the model is told to have written nothing for 120 s. -/
theorem unsent_told : unsent.pc = .returned (.error (.cut (.silentBeforeFirstWord 120))) ∧
    unsent.now = 0 ∧ unsent.sent = false := by
  have hpc : unsent.pc = .returned (.error (.cut (.silentBeforeFirstWord 120))) := by decide
  have hrun : (system .answer).Runs (fun _ _ => True) (start 0) unsent :=
    Library.System.runs_of_list (by decide)
  have htold := silence_told .answer 0 unsent hrun _ hpc
  exact ⟨hpc, rfl, htold.2.resolve_right fun hlate => absurd hlate.1 (by decide)⟩

end LocalSpace.Watching
