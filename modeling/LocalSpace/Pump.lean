import Mathlib.Logic.Function.Basic
import Mathlib.Data.List.Nodup
import LocalSpace.Library.Runs

/-!
# The server's pump

`session.rs` and the `Hub` of `transport.rs`: callers on many threads register their calls and
send their requests, Core answers them one by one and sends events in between, and the pump routes
what Core sent: an answer to the call that waits for it, an event to the channels of its users.
The steps are those between which another thread can come: a call takes the lock on `pending`,
takes its id and sends its request, and registers and gives the lock back.

In every run with at most 2⁶⁴ calls, whose ids the counter tells apart, each answer completes the
call it answers or nobody once that has timed out, and each channel holds the events that are for
it in the order Core sent them (`pump_delivers`).
-/

namespace LocalSpace

namespace Pump

open Library

variable {Resp Event : Type}

/-- Whom an event is for. -/
inductive To where
  | user (name : String)
  | all
  deriving DecidableEq

/-- What Core hands back: an answer under its request's id, or an event with whom it is for. -/
inductive Outgoing (Resp Event : Type) where
  | response (id : Nat) (response : Resp)
  | event (whom : To) (event : Event)

/-- How far a call is. -/
inductive Phase (Resp : Type) where
  | idle
  /-- holds the lock on `pending` -/
  | entered
  /-- has sent its request, and holds the lock -/
  | requested (id : Nat)
  | waiting (id : Nat)
  /-- its one-shot holds the answer -/
  | answered (id : Nat) (response : Resp)
  | returned (id : Nat) (response : Resp)
  /-- has stopped listening, and is still registered -/
  | expired (id : Nat)
  | timedOut (id : Nat)
  /-- its sender was dropped -/
  | closed (id : Nat)

namespace Phase

/-- The id a call has taken. -/
@[grind =]
def id? : Phase Resp → Option Nat
  | idle | entered => none
  | requested id | waiting id | answered id _ | returned id _ | expired id | timedOut id
  | closed id => some id

/-- What becomes of a call that is sent an answer: a receiver that is gone takes nothing. -/
def send (response : Resp) : Phase Resp → Phase Resp
  | waiting id => answered id response
  | phase => phase

/-- What becomes of a call whose sender goes. -/
def drop : Phase Resp → Phase Resp
  | waiting id => closed id
  | phase => phase

end Phase

/-- A user's channel: how many listen, and what was put into it. -/
structure Channel (Event : Type) where
  receivers : Nat
  log : List Event

/-- An event that nobody listens for is not kept. -/
@[grind =]
def Channel.put (event : Event) (ch : Channel Event) : Channel Event :=
  if ch.receivers = 0 then ch else { ch with log := ch.log ++ [event] }

/-- The server: its calls, its Core's thread, its pump, and its users' channels. -/
structure State (Resp Event : Type) where
  nextId : Nat
  /-- the call that holds the lock on `pending` -/
  holder : Option Nat
  started : Nat
  phase : Nat → Phase Resp
  pending : Nat → Option Nat
  /-- requests Core has yet to take, each with its id and its call -/
  toCore : List (Nat × Nat)
  atWork : Option (Nat × Nat)
  queue : List (Outgoing Resp Event)
  /-- what the pump has drained and not yet routed -/
  batch : List (Outgoing Resp Event)
  users : String → Option (Channel Event)
  /-- for the statements: all that Core has sent -/
  sent : List (Outgoing Resp Event)
  /-- for the statements: what was routed, with the channels that were open then -/
  routed : List (Outgoing Resp Event × (String → Bool))
  /-- for the statements: the calls Core has answered -/
  given : List (Nat × Resp)

/-- A server that has just started. -/
@[grind =]
def State.new : State Resp Event where
  nextId := 1
  holder := none
  started := 0
  phase _ := .idle
  pending _ := none
  toCore := []
  atWork := none
  queue := []
  batch := []
  users _ := none
  sent := []
  routed := []
  given := []

/-- What a thread of the server can do next. -/
inductive Act (Resp Event : Type) where
  /-- a call takes the lock on `pending` -/
  | enter
  /-- the call that holds it takes an id and sends its request -/
  | request
  | register
  | coreTakes
  | coreEmits (whom : To) (event : Event)
  | coreAnswers (response : Resp)
  | poll
  /-- the pump routes the next of what it drained -/
  | route
  | returns (call : Nat)
  /-- a call's time is up -/
  | expire (call : Nat)
  | forget (call : Nat)
  | subscribe (user : String)
  | unsubscribe (user : String)

namespace State

variable (s : State Resp Event)

/-- A channel that somebody listens to. -/
@[grind =]
def isOpen (user : String) : Bool :=
  (s.users user).any fun ch => ch.receivers ≠ 0

/-- Core hands a message to the pump. -/
@[grind =]
def post (message : Outgoing Resp Event) : State Resp Event :=
  { s with queue := s.queue ++ [message], sent := s.sent ++ [message] }

@[grind =]
def setPhase (call : Nat) (phase : Phase Resp) : State Resp Event :=
  { s with phase := Function.update s.phase call phase }

@[grind =]
def setPending (id : Nat) (call : Option Nat) : State Resp Event :=
  { s with pending := Function.update s.pending id call }

def setChannel (user : String) (ch : Option (Channel Event)) : State Resp Event :=
  { s with users := Function.update s.users user ch }

/-- `Hub::request_as`; the counter is of 64 bits. -/
@[grind =]
def request (call : Nat) : State Resp Event :=
  { s.setPhase call (.requested s.nextId) with
    nextId := (s.nextId + 1) % 2 ^ 64
    toCore := s.toCore ++ [(s.nextId, call)] }

/-- A call is registered, and gives the lock back; a sender that was there goes. -/
@[grind =]
def register (call id : Nat) : State Resp Event :=
  let cleared := match s.pending id with
    | some old => s.setPhase old (s.phase old).drop
    | none => s
  { (cleared.setPhase call (.waiting id)).setPending id (some call) with holder := none }

/-- The pump completes the call an answer is for, if there is one. -/
@[grind =]
def complete (id : Nat) (response : Resp) : State Resp Event :=
  match s.pending id with
  | some call => (s.setPhase call ((s.phase call).send response)).setPending id none
  | none => s

/-- The pump puts an event into the channels it is for. -/
def tell (whom : To) (event : Event) : State Resp Event :=
  match whom with
  | .user name => s.setChannel name ((s.users name).map (Channel.put event))
  | .all => { s with users := fun name => (s.users name).map (Channel.put event) }

def route (message : Outgoing Resp Event) : State Resp Event :=
  match message with
  | .response id response => s.complete id response
  | .event whom event => s.tell whom event

/-- `subscribe`. -/
def subscribe (user : String) : State Resp Event :=
  let ch := (s.users user).getD ⟨0, []⟩
  s.setChannel user (some { ch with receivers := ch.receivers + 1 })

/-- A receiver is dropped. -/
def unsubscribe (user : String) : State Resp Event :=
  s.setChannel user ((s.users user).map fun ch => { ch with receivers := ch.receivers - 1 })

end State

open State

/-- The steps of the server's threads. -/
@[grind =]
def system : System (State Resp Event) (Act Resp Event) where
  step s
    | .enter =>
      { s.setPhase s.started .entered with holder := some s.started, started := s.started + 1 }
    | .request =>
      match s.holder with
      | some call => s.request call
      | none => s
    | .register =>
      match s.holder with
      | some call =>
        match s.phase call with
        | .requested id => s.register call id
        | _ => s
      | none => s
    | .coreTakes =>
      match s.toCore with
      | request :: rest => { s with atWork := some request, toCore := rest }
      | [] => s
    | .coreEmits whom event => s.post (.event whom event)
    | .coreAnswers response =>
      match s.atWork with
      | some (id, call) =>
        { s.post (.response id response) with
          atWork := none, given := s.given ++ [(call, response)] }
      | none => s
    | .poll => { s with batch := s.queue, queue := [] }
    | .route =>
      match s.batch with
      | message :: rest =>
        { s.route message with batch := rest, routed := s.routed ++ [(message, s.isOpen)] }
      | [] => s
    | .returns call =>
      match s.phase call with
      | .answered id response => s.setPhase call (.returned id response)
      | _ => s
    | .expire call =>
      match s.phase call with
      | .waiting id => s.setPhase call (.expired id)
      | _ => s
    | .forget call =>
      match s.phase call with
      | .expired id => (s.setPending id none).setPhase call (.timedOut id)
      | _ => s
    | .subscribe user => s.subscribe user
    | .unsubscribe user => s.unsubscribe user
  enabled s
    | .enter => s.holder = none
    | .request => ∃ call, s.holder = some call ∧ s.phase call = .entered
    | .register => ∃ call id, s.holder = some call ∧ s.phase call = .requested id
    | .coreTakes => s.atWork = none ∧ s.toCore ≠ []
    | .coreEmits _ _ => True
    | .coreAnswers _ => s.atWork.isSome = true
    | .poll => s.batch = []
    | .route => ∃ message rest, s.batch = message :: rest ∧
        -- an answer's sender is taken out under the lock
        ∀ id response, message = .response id response → s.holder = none
    | .returns call => ∃ id response, s.phase call = .answered id response
    | .expire call => ∃ id, s.phase call = .waiting id
    | .forget call => s.holder = none ∧ ∃ id, s.phase call = .expired id
    | .subscribe _ => True
    | .unsubscribe user => s.isOpen user = true

/-- A state that some run of the server's threads reaches. -/
def Reached (s : State Resp Event) : Prop :=
  system.Runs (fun _ _ => True) State.new s

/-! ### What is promised -/

/-- The answers among messages, with their ids. -/
def responses (messages : List (Outgoing Resp Event)) : List (Nat × Resp) :=
  messages.filterMap fun
    | .response id response => some (id, response)
    | .event _ _ => none

/-- An event's place among what a user's channel takes, when it was open. -/
def eventFor (user : String) : Outgoing Resp Event × (String → Bool) → Option Event
  | (.event whom event, isOpen) =>
    if isOpen user = true ∧ (whom = .all ∨ whom = .user user) then some event else none
  | (.response _ _, _) => none

/-- What was put into a user's channel. -/
@[grind =]
def State.logOf (s : State Resp Event) (user : String) : List Event :=
  ((s.users user).map Channel.log).getD []

/-- What the pump promises of a state. -/
structure Delivers (s : State Resp Event) : Prop where
  /-- no two calls share an id -/
  ids : ∀ call call' id, (s.phase call).id? = some id → (s.phase call').id? = some id →
    call = call'
  /-- nothing Core sent is lost or reordered on its way -/
  kept : s.sent = s.routed.map Prod.fst ++ s.batch ++ s.queue
  /-- Core's answers are sent under the ids of the calls they answer, each call's once -/
  given : (s.given.map Prod.fst).Nodup ∧ ∃ idOf : Nat → Nat,
    responses s.sent = s.given.map (fun g => (idOf g.1, g.2)) ∧
      ∀ g ∈ s.given, (s.phase g.1).id? = some (idOf g.1)
  /-- an answer that was routed has completed the call it answers, or that has timed out -/
  completed : ∀ g ∈ s.given, ∀ id, (s.phase g.1).id? = some id →
    (id, g.2) ∈ responses (s.routed.map Prod.fst) →
      s.phase g.1 = .answered id g.2 ∨ s.phase g.1 = .returned id g.2 ∨
        s.phase g.1 = .expired id ∨ s.phase g.1 = .timedOut id
  /-- a call is completed by nothing but its own answer, and when it is, all that Core sent
  before it is in the channels -/
  own : ∀ call id response,
    (s.phase call = .answered id response ∨ s.phase call = .returned id response) →
      (call, response) ∈ s.given ∧ ∃ told message rest later,
        s.routed = told ++ message :: rest ∧ message.1 = .response id response ∧
          s.sent = told.map Prod.fst ++ .response id response :: later ∧
          ∀ user, told.filterMap (eventFor user) <+: s.logOf user
  /-- a user's channel holds the events that are the user's or everyone's and came while it was
  open, in the order Core sent them, and no others -/
  channels : ∀ user, s.logOf user = s.routed.filterMap (eventFor user)

/-! ### The invariant -/

/-- The id of the call that was the so-manyth to take the lock. -/
@[grind =]
def idOf (call : Nat) : Nat :=
  (1 + call) % 2 ^ 64

theorem idOf_injective {call call' : Nat} (h : call < 2 ^ 64) (h' : call' < 2 ^ 64)
    (heq : idOf call = idOf call') : call = call' := by
  rw [idOf, idOf] at heq
  omega

theorem idOf_succ (call : Nat) : (idOf call + 1) % 2 ^ 64 = idOf (call + 1) := by
  rw [idOf, idOf]
  omega

/-- The calls: who holds the lock, who has which id, and who is registered. -/
structure Calls (s : State Resp Event) : Prop where
  idle : ∀ call, s.started ≤ call → s.phase call = .idle
  held : ∀ call, s.holder = some call →
    call + 1 = s.started ∧ (s.phase call = .entered ∨ s.phase call = .requested (idOf call))
  holds : ∀ call, s.phase call = .entered → s.holder = some call
  sends : ∀ call id, s.phase call = .requested id → s.holder = some call
  taken : ∀ call id, (s.phase call).id? = some id → id = idOf call
  next : ∀ call, s.phase call = .entered → s.nextId = idOf call
  nextOf : ∀ call id, s.phase call = .requested id → s.nextId = idOf s.started
  free : s.holder = none → s.nextId = idOf s.started
  registered : ∀ id call, s.pending id = some call →
    s.phase call = .waiting id ∨ s.phase call = .expired id
  waits : ∀ call id, s.phase call = .waiting id → s.pending id = some call
  opens : ∀ call id, s.phase call ≠ .closed id

section Steps

variable {s t : State Resp Event} {call id : Nat}

theorem Calls.congr (h : Calls s) (hphase : t.phase = s.phase) (hpending : t.pending = s.pending)
    (hholder : t.holder = s.holder) (hstarted : t.started = s.started)
    (hnext : t.nextId = s.nextId) : Calls t := by
  constructor
  · rw [hphase, hstarted]
    exact h.idle
  · rw [hphase, hstarted, hholder]
    exact h.held
  · rw [hphase, hholder]
    exact h.holds
  · rw [hphase, hholder]
    exact h.sends
  · rw [hphase]
    exact h.taken
  · rw [hphase, hnext]
    exact h.next
  · rw [hphase, hnext, hstarted]
    exact h.nextOf
  · rw [hholder, hnext, hstarted]
    exact h.free
  · rw [hphase, hpending]
    exact h.registered
  · rw [hphase, hpending]
    exact h.waits
  · rw [hphase]
    exact h.opens

theorem Calls.lt_started (h : Calls s) (hid : (s.phase call).id? = some id) :
    call < s.started := by
  by_contra hge
  rw [h.idle call (Nat.le_of_not_lt hge)] at hid
  cases hid

/-- Two calls of one id are one. -/
theorem Calls.unique (h : Calls s) (hfew : s.started ≤ 2 ^ 64) {call' : Nat}
    (hid : (s.phase call).id? = some id) (hid' : (s.phase call').id? = some id) :
    call = call' := by
  have hlt := h.lt_started hid
  have hlt' := h.lt_started hid'
  exact idOf_injective (by omega) (by omega)
    ((h.taken call id hid).symm.trans (h.taken call' id hid'))

theorem Calls.enter (h : Calls s) (hfree : s.holder = none) :
    Calls (system.step s (.enter : Act Resp Event)) := by
  have hidle := h.idle
  have hholds := h.holds
  have hsends := h.sends
  have hid := h.free hfree
  constructor <;> simp only [system, setPhase]
  case taken => grind [Phase.id?, h.taken]
  case registered => grind [h.registered]
  case waits => grind [h.waits]
  case opens => grind [h.opens]
  all_goals grind

theorem Calls.request (h : Calls s) (hholder : s.holder = some call)
    (hentered : s.phase call = .entered) : Calls (s.request call) := by
  have hidle := h.idle
  have hheld := h.held
  have hholds := h.holds
  have hsends := h.sends
  have hid := h.next call hentered
  have hnext : (s.nextId + 1) % 2 ^ 64 = idOf s.started := by
    rw [hid, idOf_succ, (hheld call hholder).1]
  constructor <;> simp only [State.request, setPhase]
  case taken => grind [Phase.id?, h.taken]
  case registered => grind [h.registered]
  case waits => grind [h.waits]
  case opens => grind [h.opens]
  all_goals grind

/-- Nobody else is registered under the id of the call that registers. -/
theorem Calls.not_registered (h : Calls s) (hfew : s.started ≤ 2 ^ 64)
    (hrequested : s.phase call = .requested id) : s.pending id = none := by
  cases hpending : s.pending id with
  | none => rfl
  | some old =>
    have hcall : (s.phase call).id? = some id := by rw [hrequested]; rfl
    have hold : (s.phase old).id? = some id := by
      obtain hold | hold := h.registered id old hpending <;> rw [hold] <;> rfl
    have hsame := h.unique hfew hcall hold
    obtain hphase | hphase := h.registered id old hpending <;>
      rw [← hsame, hrequested] at hphase <;> cases hphase

theorem Calls.register (h : Calls s) (hfew : s.started ≤ 2 ^ 64)
    (hholder : s.holder = some call) (hrequested : s.phase call = .requested id) :
    Calls (s.register call id) := by
  have hidle := h.idle
  have hheld := h.held
  have hholds := h.holds
  have hsends := h.sends
  have hid : id = idOf call := h.taken call id (by rw [hrequested]; rfl)
  have hnone := h.not_registered hfew hrequested
  have hnext := h.nextOf call id hrequested
  have hregistered := h.registered
  have hwaits := h.waits
  have htaken := h.taken
  constructor <;> simp only [State.register, hnone, setPhase, setPending]
  case opens => grind [h.opens]
  case taken => grind [Phase.id?]
  all_goals grind

theorem Calls.complete (h : Calls s) (response : Resp) (hfree : s.holder = none) :
    Calls (s.complete id response) := by
  rw [State.complete]
  cases hpending : s.pending id with
  | none => exact h
  | some call =>
    have hidle := h.idle
    have hholds := h.holds
    have hsends := h.sends
    have hnext := h.free hfree
    have hregistered := h.registered
    have hphase := h.registered id call hpending
    have hwaits := h.waits
    have htaken := h.taken
    constructor <;> simp only [setPhase, setPending]
    case opens => grind [h.opens, Phase.send]
    case taken => grind [Phase.id?, Phase.send]
    all_goals grind [Phase.send]

/-- A call that is registered or done moves on. -/
theorem Calls.moves (h : Calls s) {phase : Phase Resp}
    (hid : ∃ id, (s.phase call).id? = some id ∧ phase.id? = some id)
    (hpast : ∀ id, s.phase call ≠ .requested id)
    (hphase : ∀ id, phase ≠ .requested id ∧ phase ≠ .waiting id ∧ phase ≠ .closed id)
    (hpending : ∀ id, s.pending id = some call → phase = .expired id) :
    Calls (s.setPhase call phase) := by
  have hidle := h.idle
  have hlt := h.lt_started hid.choose_spec.1
  have hheld := h.held
  have hholds := h.holds
  have hsends := h.sends
  have hregistered := h.registered
  have hwaits := h.waits
  have htaken := h.taken
  constructor <;> simp only [setPhase]
  case opens => grind [h.opens]
  case taken => grind
  case next => grind [h.next, Phase.id?]
  case nextOf => grind [h.nextOf]
  case free => exact h.free
  case held => grind [Phase.id?]
  case holds => grind [Phase.id?]
  all_goals grind

/-- What a call that forgets takes out is its own. -/
theorem Calls.forget (h : Calls s) (hfew : s.started ≤ 2 ^ 64)
    (hexpired : s.phase call = .expired id) :
    Calls ((s.setPending id none).setPhase call (.timedOut id)) := by
  have hother : ∀ other, s.phase other ≠ .waiting id := by
    intro other hwaiting
    have hcall : (s.phase call).id? = some id := by rw [hexpired]; rfl
    have hwaits : (s.phase other).id? = some id := by rw [hwaiting]; rfl
    rw [h.unique hfew hwaits hcall, hexpired] at hwaiting
    cases hwaiting
  have hidle := h.idle
  have hheld := h.held
  have hholds := h.holds
  have hsends := h.sends
  have hregistered := h.registered
  have hwaits := h.waits
  have htaken := h.taken
  have hid : id = idOf call := h.taken call id (by rw [hexpired]; rfl)
  constructor <;> simp only [setPhase, setPending]
  case opens => grind [h.opens]
  case taken => grind [Phase.id?]
  case next => grind [h.next]
  case nextOf => grind [h.nextOf]
  case free => exact h.free
  all_goals grind

end Steps

/-- What went between the calls and Core. -/
structure Mail (s : State Resp Event) : Prop where
  asked : ∀ r ∈ s.toCore ++ s.atWork.toList, (s.phase r.2).id? = some r.1
  once : ((s.toCore ++ s.atWork.toList).map Prod.snd ++ s.given.map Prod.fst).Nodup
  given : ∀ g ∈ s.given, (s.phase g.1).id? = some (idOf g.1)
  sent : s.sent = s.routed.map Prod.fst ++ s.batch ++ s.queue
  answers : responses s.sent = s.given.map fun g => (idOf g.1, g.2)
  told : ∀ r ∈ responses (s.routed.map Prod.fst), ∀ call, (s.phase call).id? = some r.1 →
    s.phase call = .answered r.1 r.2 ∨ s.phase call = .returned r.1 r.2 ∨
      s.phase call = .expired r.1 ∨ s.phase call = .timedOut r.1
  own : ∀ call id response,
    (s.phase call = .answered id response ∨ s.phase call = .returned id response) →
      (id, response) ∈ responses (s.routed.map Prod.fst)
  logs : ∀ user, s.logOf user = s.routed.filterMap (eventFor user)

@[simp] theorem responses_append (ms ms' : List (Outgoing Resp Event)) :
    responses (ms ++ ms') = responses ms ++ responses ms' :=
  List.filterMap_append

@[simp] theorem responses_response (id : Nat) (response : Resp) :
    responses [(.response id response : Outgoing Resp Event)] = [(id, response)] :=
  rfl

@[simp] theorem responses_event (whom : To) (event : Event) :
    responses [(.event whom event : Outgoing Resp Event)] = [] :=
  rfl

section Mailing

variable {s t : State Resp Event} {call id : Nat}

/-- Of a call that has no id yet, no answer was given. -/
theorem Mail.not_given (h : Mail s) (hnone : (s.phase call).id? = none) :
    call ∉ s.given.map Prod.fst := by
  intro hmem
  obtain ⟨g, hg, rfl⟩ := List.mem_map.mp hmem
  have hsome := h.given g hg
  rw [hnone] at hsome
  cases hsome

theorem Mail.not_asked (h : Mail s) (hnone : (s.phase call).id? = none) :
    call ∉ (s.toCore ++ s.atWork.toList).map Prod.snd := by
  intro hmem
  obtain ⟨r, hr, rfl⟩ := List.mem_map.mp hmem
  have hsome := h.asked r hr
  rw [hnone] at hsome
  cases hsome

/-- An answer that was sent is one that was given, under its call's id. -/
theorem Mail.given_of_sent (h : Mail s) {r : Nat × Resp} (hr : r ∈ responses s.sent) :
    ∃ g ∈ s.given, r = (idOf g.1, g.2) := by
  rw [h.answers] at hr
  obtain ⟨g, hg, heq⟩ := List.mem_map.mp hr
  exact ⟨g, hg, heq.symm⟩

theorem Mail.given_of_routed (h : Mail s) {r : Nat × Resp}
    (hr : r ∈ responses (s.routed.map Prod.fst)) : ∃ g ∈ s.given, r = (idOf g.1, g.2) := by
  refine h.given_of_sent ?_
  rw [h.sent, responses_append, responses_append, List.append_assoc]
  exact List.mem_append_left _ hr

/-- A call moves on and keeps its id. -/
theorem Mail.moves (h : Mail s) {phase : Phase Resp}
    (hid : ∀ id, (s.phase call).id? = some id → phase.id? = some id)
    (htold : ∀ r ∈ responses (s.routed.map Prod.fst), phase.id? = some r.1 →
      phase = .answered r.1 r.2 ∨ phase = .returned r.1 r.2 ∨ phase = .expired r.1 ∨
        phase = .timedOut r.1)
    (hown : ∀ id response, (phase = .answered id response ∨ phase = .returned id response) →
      (id, response) ∈ responses (s.routed.map Prod.fst)) : Mail (s.setPhase call phase) := by
  have hkeep : ∀ other id, (s.phase other).id? = some id →
      ((s.setPhase call phase).phase other).id? = some id := by
    intro other id hother
    rw [setPhase]
    dsimp only
    by_cases heq : other = call
    · subst heq
      rw [Function.update_self]
      exact hid id hother
    · rwa [Function.update_of_ne heq]
  refine ⟨fun r hr => hkeep _ _ (h.asked r hr), h.once, fun g hg => hkeep _ _ (h.given g hg),
    h.sent, h.answers, fun r hr other => ?_, fun other => ?_, h.logs⟩
  · rw [setPhase]
    dsimp only
    by_cases heq : other = call
    · subst heq
      rw [Function.update_self]
      exact htold r hr
    · rw [Function.update_of_ne heq]
      exact h.told r hr other
  · rw [setPhase]
    dsimp only
    by_cases heq : other = call
    · subst heq
      rw [Function.update_self]
      exact hown
    · rw [Function.update_of_ne heq]
      exact h.own other

theorem Mail.congr (h : Mail s) (hphase : t.phase = s.phase) (hcore : t.toCore = s.toCore)
    (hwork : t.atWork = s.atWork) (hgiven : t.given = s.given) (hsent : t.sent = s.sent)
    (hrouted : t.routed = s.routed) (hmail : t.batch ++ t.queue = s.batch ++ s.queue)
    (hlogs : ∀ user, t.logOf user = s.logOf user) : Mail t := by
  have hall := h.sent
  rw [List.append_assoc, ← hmail, ← List.append_assoc] at hall
  constructor
  · rw [hphase, hcore, hwork]
    exact h.asked
  · rw [hcore, hwork, hgiven]
    exact h.once
  · rw [hphase, hgiven]
    exact h.given
  · rw [hsent, hrouted]
    exact hall
  · rw [hsent, hgiven]
    exact h.answers
  · rw [hphase, hrouted]
    exact h.told
  · rw [hphase, hrouted]
    exact h.own
  · intro user
    rw [hlogs, hrouted]
    exact h.logs user

/-- What is answered under a call's id is the call's answer. -/
theorem Mail.given_of_id (h : Mail s) (hcalls : Calls s) (hfew : s.started ≤ 2 ^ 64)
    {r : Nat × Resp} (hr : r ∈ responses s.sent) (hid : (s.phase call).id? = some r.1) :
    (call, r.2) ∈ s.given := by
  obtain ⟨g, hg, rfl⟩ := h.given_of_sent hr
  rw [hcalls.unique hfew hid (h.given g hg)]
  exact hg

/-- An answer is sent once. -/
theorem Mail.nodup_ids (h : Mail s) (hcalls : Calls s) (hfew : s.started ≤ 2 ^ 64) :
    ((responses s.sent).map Prod.fst).Nodup := by
  rw [h.answers, List.map_map]
  have hgiven := (List.nodup_append.mp h.once).2.1
  refine List.Nodup.map_on (fun g hg g' hg' heq => ?_) (List.Nodup.of_map _ hgiven)
  have hsame := hcalls.unique hfew (h.given g hg) ((h.given g' hg').trans (congrArg some heq.symm))
  exact List.inj_on_of_nodup_map hgiven hg hg' hsame

/-! #### The steps -/

theorem Mail.enter (h : Mail s) (hcalls : Calls s) :
    Mail (system.step s (.enter : Act Resp Event)) := by
  have hidle := hcalls.idle s.started (Nat.le_refl _)
  have hmoved : Mail (s.setPhase s.started .entered) := by
    refine h.moves (fun id hid => ?_) (fun r _ hid => nomatch hid) (fun id r h => ?_)
    · rw [hidle] at hid
      cases hid
    · obtain h | h := h <;> cases h
  exact hmoved.congr rfl rfl rfl rfl rfl rfl rfl fun _ => rfl

theorem Mail.request (h : Mail s) (hcalls : Calls s) (hfew : s.started ≤ 2 ^ 64)
    (hentered : s.phase call = .entered) : Mail (s.request call) := by
  have hnone : (s.phase call).id? = none := by rw [hentered]; rfl
  have hlt : call < s.started := by
    by_contra hge
    rw [hcalls.idle call (Nat.le_of_not_lt hge)] at hentered
    cases hentered
  have hid := hcalls.next call hentered
  have hmoved : Mail (s.setPhase call (.requested s.nextId)) := by
    refine h.moves (fun id hsome => ?_) (fun r hr hsome => ?_) (fun id r h => ?_)
    · rw [hnone] at hsome
      cases hsome
    · -- an answer under this id would be another call's
      obtain ⟨g, hg, rfl⟩ := h.given_of_routed hr
      have hgiven := h.given g hg
      have hglt := hcalls.lt_started hgiven
      have heq : idOf call = idOf g.1 := by
        rw [← hid]
        exact Option.some.inj hsome
      rw [← idOf_injective (by omega) (by omega) heq, hnone] at hgiven
      cases hgiven
    · obtain h | h := h <;> cases h
  constructor
  · intro r hr
    rw [State.request, List.append_assoc, List.mem_append] at hr
    obtain hr | hr := hr
    · exact hmoved.asked r (List.mem_append_left _ hr)
    · obtain hr | hr := List.mem_append.mp hr
      · rw [List.mem_singleton.mp hr]
        change (Function.update s.phase call (.requested s.nextId) call).id? = some s.nextId
        rw [Function.update_self]
        rfl
      · exact hmoved.asked r (List.mem_append_right _ hr)
  · have hperm : ((s.toCore ++ [(s.nextId, call)] ++ s.atWork.toList).map Prod.snd ++
        s.given.map Prod.fst).Perm
        (call :: ((s.toCore ++ s.atWork.toList).map Prod.snd ++ s.given.map Prod.fst)) := by
      simp only [List.map_append, List.map_cons, List.append_assoc, List.singleton_append]
      exact List.perm_middle
    refine hperm.nodup_iff.mpr (List.nodup_cons.mpr ⟨fun hmem => ?_, h.once⟩)
    obtain hmem | hmem := List.mem_append.mp hmem
    · exact h.not_asked hnone hmem
    · exact h.not_given hnone hmem
  · exact hmoved.given
  · exact hmoved.sent
  · exact hmoved.answers
  · exact hmoved.told
  · exact hmoved.own
  · exact hmoved.logs

theorem Mail.register (h : Mail s) (hcalls : Calls s) (hfew : s.started ≤ 2 ^ 64)
    (hrequested : s.phase call = .requested id) : Mail (s.register call id) := by
  have hmoved : Mail (s.setPhase call (.waiting id)) := by
    refine h.moves (fun other hsome => ?_) (fun r hr hsome => ?_) (fun id r h => ?_)
    · rw [hrequested] at hsome
      exact hsome
    · have htold := h.told r hr call (by rw [hrequested]; exact hsome)
      rw [hrequested] at htold
      obtain h | h | h | h := htold <;> cases h
    · obtain h | h := h <;> cases h
  rw [State.register, hcalls.not_registered hfew hrequested]
  exact hmoved.congr rfl rfl rfl rfl rfl rfl rfl fun _ => rfl

theorem Mail.coreTakes (h : Mail s) {r : Nat × Nat} {rest : List (Nat × Nat)}
    (hidle : s.atWork = none) (hcore : s.toCore = r :: rest) :
    Mail { s with atWork := some r, toCore := rest } := by
  have hperm : (rest ++ [r]).Perm (s.toCore ++ s.atWork.toList) := by
    rw [hidle, hcore, Option.toList_none, List.append_nil]
    exact List.perm_append_singleton r rest
  exact ⟨fun q hq => h.asked q (hperm.mem_iff.mp hq),
    ((hperm.map Prod.snd).append_right _).nodup_iff.mpr h.once, h.given, h.sent, h.answers,
    h.told, h.own, h.logs⟩

theorem Mail.coreEmits (h : Mail s) (whom : To) (event : Event) :
    Mail (s.post (.event whom event)) := by
  refine ⟨h.asked, h.once, h.given, ?_, ?_, h.told, h.own, h.logs⟩
  · rw [post, h.sent, List.append_assoc]
  · rw [post, responses_append, h.answers, responses_event, List.append_nil]

theorem Mail.coreAnswers (h : Mail s) (hcalls : Calls s) (response : Resp)
    (hwork : s.atWork = some (id, call)) :
    Mail { s.post (.response id response) with
      atWork := none, given := s.given ++ [(call, response)] } := by
  have hcall : (s.phase call).id? = some id :=
    h.asked (id, call) (List.mem_append_right _ (by rw [hwork]; exact List.mem_singleton_self _))
  have hid : id = idOf call := hcalls.taken call id hcall
  constructor
  · intro r hr
    rw [Option.toList_none, List.append_nil] at hr
    exact h.asked r (List.mem_append_left _ hr)
  · have honce := h.once
    rw [hwork, Option.toList_some, List.map_append, List.append_assoc] at honce
    rw [Option.toList_none, List.append_nil, List.map_append]
    refine (List.Perm.append_left _ ?_).nodup_iff.mpr honce
    exact List.perm_append_comm
  · intro g hg
    obtain hg | hg := List.mem_append.mp hg
    · exact h.given g hg
    · rw [List.mem_singleton.mp hg, ← hid]
      exact hcall
  · change s.sent ++ [.response id response] =
      s.routed.map Prod.fst ++ s.batch ++ (s.queue ++ [.response id response])
    rw [h.sent, List.append_assoc]
  · rw [List.map_append, ← h.answers]
    change responses (s.sent ++ [_]) = _
    rw [responses_append, responses_response, hid]
    rfl
  · exact h.told
  · exact h.own
  · exact h.logs

theorem logOf_setChannel (user : String) (ch : Option (Channel Event)) (name : String) :
    (s.setChannel user ch).logOf name =
      if name = user then (ch.map Channel.log).getD [] else s.logOf name := by
  rw [logOf, setChannel]
  dsimp only
  by_cases heq : name = user
  · subst heq
    rw [Function.update_self, if_pos rfl]
  · rw [Function.update_of_ne heq, if_neg heq, logOf]

theorem logOf_subscribe (user name : String) : (s.subscribe user).logOf name = s.logOf name := by
  rw [subscribe, logOf_setChannel]
  split
  · next heq =>
    rw [heq, logOf]
    cases s.users user <;> rfl
  · rfl

theorem logOf_unsubscribe (user name : String) :
    (s.unsubscribe user).logOf name = s.logOf name := by
  rw [unsubscribe, logOf_setChannel]
  split
  · next heq =>
    rw [heq, logOf]
    cases s.users user <;> rfl
  · rfl

/-- A channel takes what is for it while somebody listens. -/
theorem put_log (event : Event) (user : String) :
    (((s.users user).map (Channel.put event)).map Channel.log).getD [] =
      s.logOf user ++ (if s.isOpen user = true then [event] else []) := by
  rw [logOf, isOpen]
  cases s.users user with
  | none => rfl
  | some ch =>
    rw [Option.map_some, Option.map_some, Option.any_some, Channel.put]
    by_cases hnone : ch.receivers = 0
    · rw [if_pos hnone, if_neg (by simpa using hnone), List.append_nil]
      rfl
    · rw [if_neg hnone, if_pos (by simpa using hnone)]
      rfl

/-- What telling an event puts into a channel. -/
theorem logOf_tell (whom : To) (event : Event) (user : String) :
    (s.tell whom event).logOf user =
      s.logOf user ++ (eventFor user
        ((.event whom event, s.isOpen) : Outgoing Resp Event × (String → Bool))).toList := by
  have hput := put_log (s := s) event user
  cases whom with
  | all =>
    change (((s.users user).map (Channel.put event)).map Channel.log).getD [] = _
    rw [hput, eventFor]
    by_cases hopen : s.isOpen user = true
    · rw [if_pos hopen, if_pos ⟨hopen, .inl rfl⟩]
      rfl
    · rw [if_neg hopen, if_neg fun h => hopen h.1]
      rfl
  | user name =>
    rw [State.tell, logOf_setChannel, eventFor]
    by_cases heq : user = name
    · subst heq
      rw [if_pos rfl, hput]
      by_cases hopen : s.isOpen user = true
      · rw [if_pos hopen, if_pos ⟨hopen, .inr rfl⟩]
        rfl
      · rw [if_neg hopen, if_neg fun h => hopen h.1]
        rfl
    · rw [if_neg heq, if_neg]
      · exact (List.append_nil _).symm
      · rintro ⟨-, h | h⟩
        · cases h
        · exact heq (To.user.inj h).symm

theorem Mail.tells (h : Mail s) {whom : To} {event : Event}
    {rest : List (Outgoing Resp Event)} (hbatch : s.batch = .event whom event :: rest) :
    Mail { s.tell whom event with
      batch := rest, routed := s.routed ++ [(Outgoing.event whom event, s.isOpen)] } := by
  have hframe : (s.tell whom event).phase = s.phase ∧ (s.tell whom event).toCore = s.toCore ∧
      (s.tell whom event).atWork = s.atWork ∧ (s.tell whom event).given = s.given ∧
      (s.tell whom event).sent = s.sent ∧ (s.tell whom event).queue = s.queue := by
    cases whom <;> exact ⟨rfl, rfl, rfl, rfl, rfl, rfl⟩
  obtain ⟨hphase, hcore, hwork, hgiven, hsent, hqueue⟩ := hframe
  have hrouted : responses ((s.routed ++ [(Outgoing.event whom event, s.isOpen)]).map Prod.fst) =
      responses (s.routed.map Prod.fst) := by
    rw [List.map_append, responses_append]
    exact List.append_nil _
  constructor <;> dsimp only
  · rw [hphase, hcore, hwork]
    exact h.asked
  · rw [hcore, hwork, hgiven]
    exact h.once
  · rw [hphase, hgiven]
    exact h.given
  · rw [hsent, hqueue, h.sent, hbatch, List.map_append, List.append_assoc, List.append_assoc,
      List.append_assoc]
    rfl
  · rw [hsent, hgiven]
    exact h.answers
  · rw [hphase, hrouted]
    exact h.told
  · rw [hphase, hrouted]
    exact h.own
  · intro user
    change (s.tell whom event).logOf user = _
    rw [logOf_tell, h.logs, List.filterMap_append]
    rfl

/-- Under the id of an answer that comes nothing was routed before. -/
theorem Mail.first (h : Mail s) (hcalls : Calls s) (hfew : s.started ≤ 2 ^ 64)
    {response : Resp} {rest : List (Outgoing Resp Event)}
    (hbatch : s.batch = .response id response :: rest) :
    ∀ r ∈ responses (s.routed.map Prod.fst), r.1 ≠ id := by
  have hnodup := h.nodup_ids hcalls hfew
  rw [h.sent, hbatch, List.append_assoc, List.cons_append, ← List.singleton_append,
    responses_append, responses_append, responses_response, List.map_append] at hnodup
  intro r hr heq
  refine (List.nodup_append.mp hnodup).2.2 r.1 (List.mem_map_of_mem hr) id ?_ heq
  simp

/-- Who has an id that nothing was routed under has not been answered, and holds no lock. -/
theorem Mail.unanswered (h : Mail s) (hcalls : Calls s) (hfree : s.holder = none)
    (hfirst : ∀ r ∈ responses (s.routed.map Prod.fst), r.1 ≠ id)
    (hid : (s.phase call).id? = some id) :
    s.phase call = .waiting id ∨ s.phase call = .expired id ∨ s.phase call = .timedOut id := by
  have hown := h.own call id
  have hsends := hcalls.sends call
  have hopens := hcalls.opens call
  cases hphase : s.phase call with
  | idle => rw [hphase] at hid; cases hid
  | entered => rw [hphase] at hid; cases hid
  | requested i => rw [hfree] at hsends; cases hsends i hphase
  | waiting i => rw [hphase] at hid; cases hid; exact .inl rfl
  | answered i r =>
    rw [hphase] at hid
    cases hid
    exact absurd rfl (hfirst _ (hown r (.inl hphase)))
  | returned i r =>
    rw [hphase] at hid
    cases hid
    exact absurd rfl (hfirst _ (hown r (.inr hphase)))
  | expired i => rw [hphase] at hid; cases hid; exact .inr (.inl rfl)
  | timedOut i => rw [hphase] at hid; cases hid; exact .inr (.inr rfl)
  | closed i => exact absurd hphase (hopens i)

/-- An answer is routed, and who has its id is done with it. -/
theorem Mail.routes (h : Mail s) {response : Resp} {rest : List (Outgoing Resp Event)}
    (hbatch : s.batch = .response id response :: rest)
    (hfirst : ∀ r ∈ responses (s.routed.map Prod.fst), r.1 ≠ id)
    (phase : Nat → Phase Resp) (pending : Nat → Option Nat)
    (hids : ∀ call, (phase call).id? = (s.phase call).id?)
    (hothers : ∀ call, (s.phase call).id? ≠ some id → phase call = s.phase call)
    (hdone : ∀ call, (phase call).id? = some id →
      phase call = .answered id response ∨ phase call = .expired id ∨
        phase call = .timedOut id) :
    Mail { s with
      phase := phase, pending := pending, batch := rest
      routed := s.routed ++ [(Outgoing.response id response, s.isOpen)] } := by
  have hrouted :
      responses ((s.routed ++ [(Outgoing.response id response, s.isOpen)]).map Prod.fst) =
        responses (s.routed.map Prod.fst) ++ [(id, response)] := by
    rw [List.map_append, responses_append]
    rfl
  have hall : s.sent = (s.routed ++ [(Outgoing.response id response, s.isOpen)]).map Prod.fst ++
      rest ++ s.queue := by
    rw [h.sent, hbatch, List.map_append, List.append_assoc, List.append_assoc, List.append_assoc]
    rfl
  have hlogs : ∀ user, s.logOf user =
      (s.routed ++ [(Outgoing.response id response, s.isOpen)]).filterMap (eventFor user) := by
    intro user
    rw [h.logs, List.filterMap_append]
    exact (List.append_nil _).symm
  refine ⟨fun r hr => (hids r.2).trans (h.asked r hr), h.once,
    fun g hg => (hids g.1).trans (h.given g hg), hall, h.answers, fun r hr call hid => ?_,
    fun call i r hphase => ?_, hlogs⟩
  · dsimp only at hr hid ⊢
    rw [hrouted] at hr
    obtain hr | hr := List.mem_append.mp hr
    · have hne : (s.phase call).id? ≠ some id := by
        rw [← hids, hid]
        exact fun heq => hfirst r hr (Option.some.inj heq)
      rw [hothers call hne]
      exact h.told r hr call ((hids call).symm.trans hid)
    · rw [List.mem_singleton.mp hr] at hid ⊢
      exact (hdone call hid).imp_right .inr
  · dsimp only at hphase ⊢
    rw [hrouted, List.mem_append]
    have hid : (phase call).id? = some i := by
      obtain hphase | hphase := hphase <;> rw [hphase] <;> rfl
    by_cases heq : i = id
    · subst heq
      obtain hdone | hdone | hdone := hdone call hid <;> rw [hdone] at hphase
      · obtain hphase | hphase := hphase
        · cases hphase
          exact .inr (List.mem_singleton_self _)
        · cases hphase
      · obtain hphase | hphase := hphase <;> cases hphase
      · obtain hphase | hphase := hphase <;> cases hphase
    · have hne : (s.phase call).id? ≠ some id := by
        rw [← hids, hid]
        exact fun h => heq (Option.some.inj h)
      rw [hothers call hne] at hphase
      exact .inl (h.own call i r hphase)

/-- The pump completes the call that waits for an answer. -/
theorem Mail.completes (h : Mail s) (hcalls : Calls s) (hfew : s.started ≤ 2 ^ 64)
    (hfree : s.holder = none) {response : Resp} {rest : List (Outgoing Resp Event)}
    (hbatch : s.batch = .response id response :: rest) :
    Mail { s.complete id response with
      batch := rest, routed := s.routed ++ [(Outgoing.response id response, s.isOpen)] } := by
  have hfirst := h.first hcalls hfew hbatch
  rw [State.complete]
  cases hpending : s.pending id with
  | none =>
    refine h.routes hbatch hfirst s.phase s.pending (fun _ => rfl) (fun _ _ => rfl) fun call hid => ?_
    obtain hphase | hphase | hphase := h.unanswered hcalls hfree hfirst hid
    · rw [hcalls.waits call id hphase] at hpending
      cases hpending
    · exact .inr (.inl hphase)
    · exact .inr (.inr hphase)
  | some call =>
    have hcall := hcalls.registered id call hpending
    have hid : (s.phase call).id? = some id := by
      obtain hcall | hcall := hcall <;> rw [hcall] <;> rfl
    have hsend : (s.phase call).send response = .answered id response ∨
        (s.phase call).send response = .expired id := by
      obtain hcall | hcall := hcall <;> rw [hcall]
      · exact .inl rfl
      · exact .inr rfl
    refine h.routes hbatch hfirst (Function.update s.phase call ((s.phase call).send response))
      (Function.update s.pending id none) (fun other => ?_) (fun other hother => ?_)
      fun other hother => ?_
    · by_cases heq : other = call
      · subst heq
        rw [Function.update_self, hid]
        obtain hsend | hsend := hsend <;> rw [hsend] <;> rfl
      · rw [Function.update_of_ne heq]
    · refine Function.update_of_ne (fun heq => hother ?_) _ _
      rw [heq, hid]
    · by_cases heq : other = call
      · subst heq
        rw [Function.update_self]
        exact hsend.imp_right .inl
      · rw [Function.update_of_ne heq] at hother
        exact absurd (hcalls.unique hfew hother hid) heq

end Mailing

/-! ### Runs -/

/-- What every state has that a run with few enough calls reaches. -/
structure Sound (s : State Resp Event) : Prop where
  calls : Calls s
  mail : Mail s

theorem sound_new : Sound (State.new : State Resp Event) :=
  ⟨⟨fun _ _ => rfl, nofun, nofun, nofun, nofun, nofun, nofun, fun _ => rfl, nofun, nofun, nofun⟩,
    ⟨nofun, List.nodup_nil, nofun, rfl, rfl, nofun, fun _ _ _ h => h.elim nofun nofun,
      fun _ => rfl⟩⟩

variable {s t : State Resp Event} {a : Act Resp Event}

/-- Calls only become more. -/
theorem started_le : s.started ≤ (system.step s a).started := by
  have hsame : a ≠ .enter → (system.step s a).started = s.started := by
    intro ha
    cases a with
    | enter => exact absurd rfl ha
    | request => simp only [system]; split <;> rfl
    | register =>
      simp only [system]
      split
      · split
        · rw [State.register]
          split <;> rfl
        · rfl
      · rfl
    | coreTakes => simp only [system]; split <;> rfl
    | coreEmits whom event => rfl
    | coreAnswers response => simp only [system]; split <;> rfl
    | poll => rfl
    | route =>
      simp only [system]
      split
      · next message rest _ =>
        cases message with
        | response id response =>
          rw [State.route, State.complete]
          split <;> rfl
        | event whom event => cases whom <;> rfl
      · rfl
    | returns call => simp only [system]; split <;> rfl
    | expire call => simp only [system]; split <;> rfl
    | forget call => simp only [system]; split <;> rfl
    | subscribe user => rfl
    | unsubscribe user => rfl
  by_cases ha : a = .enter
  · rw [ha]
    exact Nat.le_succ _
  · exact Nat.le_of_eq (hsame ha).symm

theorem Sound.step (h : Sound s) (hfew : s.started ≤ 2 ^ 64) (hcame : system.enabled s a) :
    Sound (system.step s a) := by
  obtain ⟨hcalls, hmail⟩ := h
  cases a with
  | enter => exact ⟨hcalls.enter hcame, hmail.enter hcalls⟩
  | request =>
    obtain ⟨call, hholder, hentered⟩ := hcame
    simp only [system, hholder]
    exact ⟨hcalls.request hholder hentered, hmail.request hcalls hfew hentered⟩
  | register =>
    obtain ⟨call, id, hholder, hrequested⟩ := hcame
    simp only [system, hholder, hrequested]
    exact ⟨hcalls.register hfew hholder hrequested, hmail.register hcalls hfew hrequested⟩
  | coreTakes =>
    obtain ⟨hidle, hcore⟩ := hcame
    obtain ⟨r, rest, hcons⟩ := List.exists_cons_of_ne_nil hcore
    simp only [system, hcons]
    exact ⟨hcalls.congr rfl rfl rfl rfl rfl, hmail.coreTakes hidle hcons⟩
  | coreEmits whom event => exact ⟨hcalls.congr rfl rfl rfl rfl rfl, hmail.coreEmits whom event⟩
  | coreAnswers response =>
    obtain ⟨⟨id, call⟩, hwork⟩ := Option.isSome_iff_exists.mp hcame
    simp only [system, hwork]
    exact ⟨hcalls.congr rfl rfl rfl rfl rfl, hmail.coreAnswers hcalls response hwork⟩
  | poll =>
    refine ⟨hcalls.congr rfl rfl rfl rfl rfl, hmail.congr rfl rfl rfl rfl rfl rfl ?_ fun _ => rfl⟩
    change s.queue ++ [] = s.batch ++ s.queue
    rw [show s.batch = [] from hcame, List.append_nil, List.nil_append]
  | route =>
    obtain ⟨message, rest, hbatch, hfree⟩ := hcame
    simp only [system, hbatch]
    cases message with
    | event whom event =>
      refine ⟨hcalls.congr ?_ ?_ ?_ ?_ ?_, hmail.tells hbatch⟩ <;> cases whom <;> rfl
    | response id response =>
      have hholder := hfree id response rfl
      exact ⟨(hcalls.complete response hholder).congr rfl rfl rfl rfl rfl,
        hmail.completes hcalls hfew hholder hbatch⟩
  | returns call =>
    obtain ⟨id, response, hanswered⟩ := hcame
    simp only [system, hanswered]
    constructor
    · refine hcalls.moves ⟨id, by rw [hanswered]; rfl, rfl⟩ (fun i => by rw [hanswered]; nofun)
        (fun i => ⟨nofun, nofun, nofun⟩) fun i hpending => ?_
      obtain hphase | hphase := hcalls.registered i call hpending <;>
        rw [hanswered] at hphase <;> cases hphase
    · refine hmail.moves (fun i hid => ?_) (fun r hr hid => ?_) fun i r hphase => ?_
      · rw [hanswered] at hid
        exact hid
      · have htold := hmail.told r hr call (by rw [hanswered]; exact hid)
        rw [hanswered] at htold
        obtain h | h | h | h := htold <;> cases h
        exact .inr (.inl rfl)
      · obtain h | h := hphase <;> cases h
        exact hmail.own call id response (.inl hanswered)
  | expire call =>
    obtain ⟨id, hwaiting⟩ := hcame
    simp only [system, hwaiting]
    constructor
    · refine hcalls.moves ⟨id, by rw [hwaiting]; rfl, rfl⟩ (fun i => by rw [hwaiting]; nofun)
        (fun i => ⟨nofun, nofun, nofun⟩) fun i hpending => ?_
      obtain hphase | hphase := hcalls.registered i call hpending <;>
        rw [hwaiting] at hphase <;> cases hphase
      rfl
    · refine hmail.moves (fun i hid => ?_) (fun r hr hid => ?_) fun i r hphase => ?_
      · rw [hwaiting] at hid
        exact hid
      · have htold := hmail.told r hr call (by rw [hwaiting]; exact hid)
        rw [hwaiting] at htold
        obtain h | h | h | h := htold <;> cases h
      · obtain h | h := hphase <;> cases h
  | forget call =>
    obtain ⟨hholder, id, hexpired⟩ := hcame
    simp only [system, hexpired]
    refine ⟨hcalls.forget hfew hexpired, ?_⟩
    have hmoved : Mail (s.setPhase call (.timedOut id)) := by
      refine hmail.moves (fun i hid => ?_) (fun r hr hid => ?_) fun i r hphase => ?_
      · rw [hexpired] at hid
        exact hid
      · exact .inr (.inr (.inr (by cases hid; rfl)))
      · obtain h | h := hphase <;> cases h
    exact hmoved.congr rfl rfl rfl rfl rfl rfl rfl fun _ => rfl
  | subscribe user =>
    exact ⟨hcalls.congr rfl rfl rfl rfl rfl,
      hmail.congr rfl rfl rfl rfl rfl rfl rfl (logOf_subscribe user)⟩
  | unsubscribe user =>
    exact ⟨hcalls.congr rfl rfl rfl rfl rfl,
      hmail.congr rfl rfl rfl rfl rfl rfl rfl (logOf_unsubscribe user)⟩

/-- A run with few enough calls keeps what is sound. -/
theorem sound_reached (h : Reached s) (hfew : s.started ≤ 2 ^ 64) : Sound s := by
  refine h.invariant (I := fun s => s.started ≤ 2 ^ 64 → Sound s) (fun _ => sound_new)
    (fun t a ih hcame _ hfew => ?_) hfew
  have hbefore : t.started ≤ 2 ^ 64 := Nat.le_trans started_le hfew
  exact (ih hbefore).step hbefore hcame

/-- **The pump loses and misdirects nothing**, in every run with at most 2⁶⁴ calls. -/
theorem pump_delivers (h : Reached s) (hfew : s.started ≤ 2 ^ 64) : Delivers s := by
  obtain ⟨hcalls, hmail⟩ := sound_reached h hfew
  refine ⟨fun call call' id hid hid' => hcalls.unique hfew hid hid', hmail.sent,
    ⟨(List.nodup_append.mp hmail.once).2.1, idOf, hmail.answers, hmail.given⟩, ?_, ?_, hmail.logs⟩
  · intro g hg id hid hrouted
    exact hmail.told (id, g.2) hrouted g.1 hid
  · intro call id response hphase
    have hid : (s.phase call).id? = some id := by
      obtain hphase | hphase := hphase <;> rw [hphase] <;> rfl
    have hrouted := hmail.own call id response hphase
    have hsent : (id, response) ∈ responses s.sent := by
      rw [hmail.sent, responses_append, responses_append, List.append_assoc]
      exact List.mem_append_left _ hrouted
    refine ⟨hmail.given_of_id hcalls hfew hsent hid, ?_⟩
    obtain ⟨m, hm, hsome⟩ := List.mem_filterMap.mp hrouted
    obtain ⟨message, hmessage, rfl⟩ := List.mem_map.mp hm
    obtain ⟨told, rest, hsplit⟩ := List.append_of_mem hmessage
    have hresponse : message.1 = .response id response := by
      obtain ⟨out, isOpen⟩ := message
      cases out with
      | response i r => cases hsome; rfl
      | event whom event => cases hsome
    refine ⟨told, message, rest, rest.map Prod.fst ++ s.batch ++ s.queue, hsplit, hresponse, ?_,
      fun user => ?_⟩
    · rw [hmail.sent, hsplit, List.map_append, List.map_cons, hresponse]
      simp only [List.append_assoc, List.cons_append]
    · rw [hmail.logs, hsplit, List.filterMap_append]
      exact List.prefix_append _ _

/-- Two calls under way at once, an event before their answers; the second's time is up when its
answer comes. -/
def twoCalls : List (Act Nat Nat) :=
  [.subscribe "anna", .enter, .request, .register, .enter, .request, .register, .coreTakes,
    .coreEmits (.user "anna") 7, .coreAnswers 5, .coreTakes, .coreAnswers 6, .poll, .route, .route,
    .expire 1, .route, .forget 1, .returns 0]

theorem pump_delivers_two : Delivers (system.run State.new twoCalls) := by
  have hallowed : system.Allowed (fun _ _ => True) State.new twoCalls :=
    ⟨trivial, trivial, rfl, trivial, ⟨0, rfl, rfl⟩, trivial, ⟨0, 1, rfl, rfl⟩, trivial, rfl, trivial,
      ⟨1, rfl, rfl⟩, trivial, ⟨1, 2, rfl, rfl⟩, trivial, ⟨rfl, nofun⟩, trivial, trivial, trivial,
      rfl, trivial, ⟨rfl, nofun⟩, trivial, rfl, trivial, rfl, trivial, ⟨_, _, rfl, nofun⟩, trivial,
      ⟨_, _, rfl, fun _ _ _ => rfl⟩, trivial, ⟨2, rfl⟩, trivial,
      ⟨_, _, rfl, fun _ _ _ => rfl⟩, trivial, ⟨rfl, 2, rfl⟩, trivial, ⟨1, 5, rfl⟩, trivial, trivial⟩
  exact pump_delivers (System.runs_of_list hallowed) (by decide)

theorem id?_drop (phase : Phase Resp) : phase.drop.id? = phase.id? := by
  cases phase <;> rfl

/-- Any number of calls can be waiting at once. -/
theorem many_waiting (n : Nat) : ∃ s : State Resp Event, Reached s ∧ s.holder = none ∧
    s.started = n ∧ s.nextId = idOf n ∧ ∀ call < n, (s.phase call).id? = some (idOf call) := by
  induction n with
  | zero => exact ⟨State.new, .refl, rfl, rfl, rfl, nofun⟩
  | succ n ih =>
    obtain ⟨s, hreached, hfree, hstarted, hnext, hphase⟩ := ih
    have hallowed : system.Allowed (fun _ _ => True) s [.enter, .request, .register] := by
      refine ⟨hfree, trivial, ⟨s.started, rfl, Function.update_self _ _ _⟩, trivial, ?_⟩
      exact ⟨⟨s.started, s.nextId, rfl, Function.update_self _ _ _⟩, trivial, trivial⟩
    refine ⟨_, hreached.trans (System.runs_of_list hallowed), ?_⟩
    have hlast : system.run s [.enter, .request, .register] =
        (((system.step s .enter).request s.started).register s.started s.nextId) := by
      change system.step ((system.step s .enter).request s.started) .register = _
      have hrequested : ((system.step s .enter).request s.started).phase s.started =
          .requested s.nextId := Function.update_self _ _ _
      have hholder : ((system.step s .enter).request s.started).holder = some s.started := rfl
      simp only [system] at hrequested hholder ⊢
      rw [hholder]
      dsimp only
      rw [hrequested]
    rw [hlast, State.register]
    have hids : ∀ call < n + 1, call ≠ s.started → (s.phase call).id? = some (idOf call) :=
      fun call hlt hne => hphase call (by omega)
    have hnew : (s.nextId + 1) % 2 ^ 64 = idOf (n + 1) := by rw [hnext, idOf_succ]
    have hdrop := @id?_drop Resp
    split
    · refine ⟨rfl, congrArg (· + 1) hstarted, hnew, fun call hlt => ?_⟩
      simp only [setPhase, setPending, State.request, system]
      grind [Phase.id?]
    · refine ⟨rfl, congrArg (· + 1) hstarted, hnew, fun call hlt => ?_⟩
      simp only [setPhase, setPending, State.request, system]
      grind [Phase.id?]

/-- After 2⁶⁴ calls the counter begins again. -/
theorem ids_wrap : ∃ s : State Unit Unit, Reached s ∧ ¬Delivers s := by
  obtain ⟨s, hreached, -, -, -, hids⟩ := @many_waiting Unit Unit (2 ^ 64 + 1)
  have hsame : idOf (2 ^ 64) = idOf 0 := by decide
  refine ⟨s, hreached, fun hdelivers => ?_⟩
  have hfirst := hids 0 (by omega)
  have hlast := hids (2 ^ 64) (by omega)
  rw [hsame] at hlast
  exact absurd (hdelivers.ids 0 (2 ^ 64) (idOf 0) hfirst hlast) (by decide)

end Pump

end LocalSpace
