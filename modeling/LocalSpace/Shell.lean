import LocalSpace.Core
import Mathlib.Data.List.Induction
import Mathlib.Logic.Function.Basic

/-!
# The shell's chats

`store.ts`: what the shell holds of the chats is put together from the answers to its requests,
which come in any order, and from the stream of events, which keeps its order and may be lost. The
words and the calls of a turn are appended as they come, and taken away when a read of the
transcript, asked for at the turn's end, has been answered.
-/

namespace LocalSpace

namespace Shell

/-! ### Messages -/

/-- A chat as Core answers it: its messages, and where the model's reading of it begins. -/
structure View where
  messages : List ChatMessage
  readFrom : ℕ

structure LiveToolCall where
  id : String
  tool : String
  params : Json
  outcome : Option ToolOutcome

/-- An event. The number of the turn in its chat is not on the wire. -/
inductive Event where
  | turnChanged (chat : ConversationId) (turn : ℕ) (state : TurnState)
  | assistantDelta (chat : ConversationId) (turn : ℕ) (text : String)
  | toolCallStarted (chat : ConversationId) (turn : ℕ) (call : LiveToolCall)
  | toolCallFinished (chat : ConversationId) (turn : ℕ) (id : String) (outcome : ToolOutcome)
  | assistantDone (chat : ConversationId) (turn : ℕ)
  | conversationChanged (current : ConversationId)

/-- A request; a read of the transcript with the chat whose words it clears. -/
inductive Request where
  | getTranscript (clears : Option ConversationId)
  | listConversations
  | listTurns
  | newConversation
  | selectConversation (id : ConversationId)
  | deleteConversation (id : ConversationId)
  | sendMessage (text : String) (chat : ConversationId)
  | continueAnswer (chat : ConversationId)

/-- An answer, with what the shell does next. -/
inductive Answer where
  | transcript (view : View) (clears : Option ConversationId)
  | conversations (current : ConversationId) (rereads : Bool)
  | newConversation (current : ConversationId)
  | notFound
  | turns (turns : ConversationId → Option TurnState)
  | sent (view : View) (chat : ConversationId)
  | notSent (chat : ConversationId)
  | continued (chat : ConversationId) (ok : Bool)

/-- What Core has of a user's chats: the chat that is current, each chat as it is answered, its
turn, and how many of its turns are over. -/
structure Chats where
  current : ConversationId
  views : ConversationId → View
  turns : ConversationId → Option TurnState
  ended : ConversationId → ℕ

/-- What the shell has of the chats. -/
structure Session where
  live : Bool
  currentConversation : ConversationId
  transcript : List ChatMessage
  readFrom : ℕ
  streaming : ConversationId → Option String
  liveCalls : ConversationId → Option (List LiveToolCall)
  turns : ConversationId → Option TurnState
  continuing : ConversationId → Bool

/-- Core, what is on its way, and the shell; what was delivered, the turn of each chat of which
something was, and how many of a chat's turns were ended, as far as was delivered or lost. -/
structure System where
  core : Chats
  stream : List Event
  requests : List Request
  answers : List Answer
  shell : Session
  delivered : List Event
  heard : ConversationId → Option ℕ
  ended : ConversationId → ℕ

/-- `ENDED`: the answer is over. -/
def isEnded : TurnState → Bool
  | .done | .stopped | .cut => true
  | _ => false

/-! ### The shell -/

section Steps

variable (s : System)

def System.ask (requests : List Request) : System :=
  { s with requests := s.requests ++ requests }

/-- `clear`: the chat has nothing in progress. -/
def Session.clear (shell : Session) (chat : ConversationId) : Session :=
  { shell with
    streaming := Function.update shell.streaming chat none
    liveCalls := Function.update shell.liveCalls chat none
    continuing := Function.update shell.continuing chat false }

/-- `refreshTranscript`, answered. -/
@[grind =]
def Session.read (shell : Session) (view : View) : Session :=
  { shell with transcript := view.messages, readFrom := view.readFrom }

def Session.withoutTurn (shell : Session) (chat : ConversationId) : Session :=
  { shell with turns := Function.update shell.turns chat none }

def withOutcome (id : String) (outcome : ToolOutcome) (calls : List LiveToolCall) :
    List LiveToolCall :=
  calls.map fun c => if c.id = id then { c with outcome := some outcome } else c

/-- `onEvent`. -/
@[grind =]
def System.onEvent : Event → System
  | .turnChanged chat _ state =>
    { s with shell := { s.shell with
        turns := Function.update s.shell.turns chat (if isEnded state then none else some state) } }
  | .assistantDelta chat _ text =>
    { s with shell := { s.shell with
        streaming := Function.update s.shell.streaming chat
          (some ((s.shell.streaming chat).getD "" ++ text)) } }
  | .toolCallStarted chat _ call =>
    { s with shell := { s.shell with
        liveCalls := Function.update s.shell.liveCalls chat
          (some ((s.shell.liveCalls chat).getD [] ++ [call])) } }
  | .toolCallFinished chat _ id outcome =>
    { s with shell := { s.shell with
        liveCalls := Function.update s.shell.liveCalls chat
          (some (withOutcome id outcome ((s.shell.liveCalls chat).getD []))) } }
  | .assistantDone chat _ =>
    -- The chat on screen keeps its words until the transcript has been read.
    if chat = s.shell.currentConversation then
      s.ask [.getTranscript (some chat), .listConversations]
    else { s with shell := s.shell.clear chat }.ask [.listConversations]
  | .conversationChanged current =>
    { s with shell := { s.shell with currentConversation := current } }.ask
      [.listConversations, .getTranscript none]

/-- What is done with an answer. -/
def System.receive : Answer → System
  | .transcript view clears =>
    { s with shell := match clears with
      | some chat => (s.shell.read view).clear chat
      | none => s.shell.read view }
  | .conversations current rereads =>
    { s with shell := { s.shell with currentConversation := current } }.ask
      (if rereads then [.getTranscript none] else [])
  | .newConversation current =>
    { s with shell := { s.shell with
        currentConversation := current, transcript := [], readFrom := 0 } }
  | .notFound => s.ask [.getTranscript none]
  | .turns turns => { s with shell := { s.shell with turns } }
  | .sent view chat =>
    { s with
      shell := if s.shell.currentConversation = chat then s.shell.read view else s.shell }.ask
      [.listConversations]
  | .notSent chat => { s with shell := s.shell.withoutTurn chat }.ask [.getTranscript none]
  | .continued chat ok =>
    if ok then s
    else
      { s with shell := { s.shell.withoutTurn chat with
          continuing := Function.update s.shell.continuing chat false } }

/-- What the user asks for. -/
inductive Ask where
  | send (text : String)
  | continueAnswer
  | newConversation
  | selectConversation (id : ConversationId)
  | deleteConversation (id : ConversationId)

/-- The user's message, as it is shown before Core has it. -/
def said (text : String) : ChatMessage :=
  ⟨.user, text, [], false, "", none, []⟩

def Session.writes (shell : Session) : Session :=
  { shell with turns := Function.update shell.turns shell.currentConversation (some .writing) }

def System.onAsk : Ask → System
  | .send text =>
    { s with shell := { s.shell.writes with transcript := s.shell.transcript ++ [said text] } }.ask
      [.sendMessage text s.shell.currentConversation]
  | .continueAnswer =>
    { s with shell := { s.shell.writes with
        continuing := Function.update s.shell.continuing s.shell.currentConversation true } }.ask
      [.continueAnswer s.shell.currentConversation]
  | .newConversation => s.ask [.newConversation]
  | .selectConversation id => s.ask [.selectConversation id]
  | .deleteConversation id => s.ask [.deleteConversation id]

/-! ### The stream -/

/-- Ends that were delivered or lost. -/
def advance (ended : ConversationId → ℕ) : List Event → ConversationId → ℕ
  | [] => ended
  | .assistantDone chat _ :: es => advance (Function.update ended chat (ended chat + 1)) es
  | _ :: es => advance ended es

/-- Of a turn whose end is lost nothing more is heard. -/
def unheard (heard : ConversationId → Option ℕ) : List Event → ConversationId → Option ℕ
  | [] => heard
  | .assistantDone chat _ :: es => unheard (Function.update heard chat none) es
  | _ :: es => unheard heard es

def System.lose (es : List Event) : System :=
  { s with heard := unheard s.heard es, ended := advance s.ended es }

/-- Core's events reach the stream while it is up. -/
@[grind =]
def System.emit (es : List Event) : System :=
  if s.shell.live then { s with stream := s.stream ++ es } else s.lose es

/-- `setLive`. -/
@[grind =]
def System.setLive (live : Bool) : System :=
  if live = true ∧ s.shell.live = false then
    { s with shell := { s.shell with live } }.ask [.listTurns, .getTranscript none]
  else { s with shell := { s.shell with live } }

/-- The stream drops, with what is on it. -/
def System.drop : System :=
  { s.lose s.stream with stream := [] }.setLive false

/-- What of its turn has been heard, once an event of a chat was delivered. -/
def heardOn (heard : ConversationId → Option ℕ) : Event → ConversationId → Option ℕ
  | .turnChanged chat turn state =>
    if isEnded state then heard else Function.update heard chat (some turn)
  | .assistantDelta chat turn _ | .toolCallStarted chat turn _ =>
    Function.update heard chat (some turn)
  | .assistantDone chat _ => Function.update heard chat none
  | _ => heard

/-- The next event is delivered. -/
@[grind =]
def System.deliver : System :=
  match s.stream with
  | [] => s
  | e :: es =>
    { s with
      stream := es
      delivered := s.delivered ++ [e]
      heard := heardOn s.heard e
      ended := advance s.ended [e] }.onEvent e

/-! ### Core -/

@[grind =]
def Chats.at (core : Chats) (chat : ConversationId) (view : View) (turn : Option TurnState) :
    Chats :=
  { core with
    views := Function.update core.views chat view
    turns := Function.update core.turns chat turn }

/-- A turn is over: the chat is told. -/
def System.ends (chat : ConversationId) (how : TurnState) : System :=
  { s with core := { s.core with
      turns := Function.update s.core.turns chat none
      ended := Function.update s.core.ended chat (s.core.ended chat + 1) } }.emit
    [.assistantDone chat (s.core.ended chat), .turnChanged chat (s.core.ended chat) how]

def System.shows (current : ConversationId) : System :=
  { s with core := { s.core with current } }.emit [.conversationChanged current]

/-- A turn comes into a chat, with what it begins with. -/
def System.begins (chat : ConversationId) (view : View) (state : TurnState) : System :=
  { s with core := s.core.at chat view (some state) }.emit
    [.turnChanged chat (s.core.ended chat) state]

def System.reply (answer : Answer) : System :=
  { s with answers := s.answers ++ [answer] }

/-- What Core makes of a request: whether it does it, with the chat and the turn it comes to. -/
structure Outcome where
  ok : Bool
  id : ConversationId
  view : View
  state : TurnState

/-- A chat's turn ends before the chat is deleted. -/
@[grind =]
def System.forget (chat : ConversationId) : System :=
  if (s.core.turns chat).isSome then s.ends chat .stopped else s

/-- Core takes a request. -/
@[grind =]
def System.serve (outcome : Outcome) : Request → System
  | .getTranscript clears => s.reply (.transcript (s.core.views s.core.current) clears)
  | .listConversations => s.reply (.conversations s.core.current false)
  | .listTurns => s.reply (.turns s.core.turns)
  | .newConversation =>
    ({ s with core := s.core.at outcome.id ⟨[], 0⟩ none }.shows outcome.id).reply
      (.newConversation outcome.id)
  | .selectConversation id =>
    if outcome.ok then (s.shows id).reply (.conversations id true) else s.reply .notFound
  | .deleteConversation id =>
    if outcome.ok then
      ((s.forget id).shows outcome.id).reply (.conversations outcome.id true)
    else (s.forget id).reply .notFound
  | .sendMessage _ chat =>
    if (s.core.turns chat).isNone ∧ outcome.ok = true then
      let s' := s.begins chat outcome.view outcome.state
      s'.reply (.sent (s'.core.views s'.core.current) chat)
    else s.reply (.notSent chat)
  | .continueAnswer chat =>
    if (s.core.turns chat).isNone ∧ outcome.ok = true then
      (s.begins chat outcome.view outcome.state).reply (.continued chat true)
    else s.reply (.continued chat false)

/-- What else happens in Core: other clients' messages and switches, the turns' words and calls,
what is kept of them, and another place where the model's reading begins. -/
inductive Act where
  | begins (chat : ConversationId) (view : View) (state : TurnState)
  | moves (chat : ConversationId) (state : TurnState)
  | speaks (chat : ConversationId) (text : String)
  | calls (chat : ConversationId) (call : LiveToolCall)
  | called (chat : ConversationId) (id : String) (outcome : ToolOutcome)
  | keeps (chat : ConversationId) (view : View)
  | ends (chat : ConversationId) (how : TurnState)
  | switches (current : ConversationId)
  | rereads (readFrom : ConversationId → ℕ)

/-- The chat in which there has to be a turn. -/
def Act.inTurn : Act → Option ConversationId
  | moves chat _ | speaks chat _ | calls chat _ | keeps chat _ | ends chat _ => some chat
  | _ => none

/-- An act of Core's; a turn begins only where there is none. -/
@[grind =]
def System.act : Act → System
  | .begins chat view state =>
    if (s.core.turns chat).isNone then s.begins chat view state else s
  | .moves chat state =>
    { s with core := { s.core with turns := Function.update s.core.turns chat (some state) } }.emit
      [.turnChanged chat (s.core.ended chat) state]
  | .speaks chat text => s.emit [.assistantDelta chat (s.core.ended chat) text]
  | .calls chat call => s.emit [.toolCallStarted chat (s.core.ended chat) call]
  | .called chat id outcome => s.emit [.toolCallFinished chat (s.core.ended chat) id outcome]
  | .keeps chat view => { s with core := s.core.at chat view (s.core.turns chat) }
  | .ends chat how => if isEnded how then s.ends chat how else s
  | .switches current => s.shows current
  | .rereads readFrom =>
    { s with core := { s.core with
        views := fun chat => { s.core.views chat with readFrom := readFrom chat } } }

/-! ### Runs -/

/-- What happens next. -/
inductive Step where
  | core (act : Act)
  | takes (i : ℕ) (outcome : Outcome)
  | answered (i : ℕ)
  | event
  | drops
  | comesBack
  | asks (ask : Ask)

@[grind =]
def System.step : Step → System
  | .core act =>
    if act.inTurn.all fun chat => (s.core.turns chat).isSome then s.act act else s
  | .takes i outcome =>
    match s.requests[i]? with
    | some r => { s with requests := s.requests.eraseIdx i }.serve outcome r
    | none => s
  | .answered i =>
    match s.answers[i]? with
    | some a => { s with answers := s.answers.eraseIdx i }.receive a
    | none => s
  | .event => s.deliver
  | .drops => s.drop
  | .comesBack => s.setLive true
  | .asks ask => s.onAsk ask

end Steps

@[grind =]
def run (s : System) (steps : List Step) : System :=
  steps.foldl System.step s

/-- The shell as it opens. -/
def opening (core : Chats) : System :=
  { core
    stream := []
    requests := [.getTranscript none, .listConversations]
    answers := []
    shell := ⟨false, "", [], 0, fun _ => none, fun _ => none, fun _ => none, fun _ => false⟩
    delivered := []
    heard := fun _ => none
    ended := core.ended }

/-! ### What the shell shows -/

/-- The words of a turn that were delivered. -/
def wordsOf (chat : ConversationId) (turn : ℕ) (es : List Event) : String :=
  es.foldl (fun words e => match e with
    | .assistantDelta c t text => if c = chat ∧ t = turn then words ++ text else words
    | _ => words) ""

/-- The calls of a turn that were delivered, with their outcomes. -/
@[grind =]
def callsOf (chat : ConversationId) (turn : ℕ) (es : List Event) : List LiveToolCall :=
  es.foldl (fun calls e => match e with
    | .toolCallStarted c t call => if c = chat ∧ t = turn then calls ++ [call] else calls
    | .toolCallFinished c t id outcome =>
      if c = chat ∧ t = turn then withOutcome id outcome calls else calls
    | _ => calls) []

section Shown

variable (s : System)

/-- What is shown of a chat whose turn is being written, as far as was heard, are the words and the
calls of that turn. -/
def OwnWords : Prop :=
  ∀ chat turn, s.heard chat = some turn →
    (s.shell.streaming chat).getD "" = wordsOf chat turn s.delivered ∧
      (s.shell.liveCalls chat).getD [] = callsOf chat turn s.delivered

/-- The transcript is that of the chat on screen as Core has it. -/
def UpToDate : Prop :=
  s.shell.transcript = (s.core.views s.shell.currentConversation).messages ∧
    s.shell.readFrom = (s.core.views s.shell.currentConversation).readFrom

/-- Every request has been answered and the stream is live. -/
def Settled : Prop :=
  s.requests = [] ∧ s.answers = [] ∧ s.shell.live = true

/-! ### Screens -/

/-- The chat on screen, and its transcript. -/
def Session.screen (shell : Session) : ConversationId × View :=
  (shell.currentConversation, ⟨shell.transcript, shell.readFrom⟩)

/-- What an answer does to the screen. -/
@[grind =]
def Answer.show (screen : ConversationId × View) : Answer → ConversationId × View
  | transcript view _ => (screen.1, view)
  | conversations current _ => (current, screen.2)
  | newConversation current => (current, ⟨[], 0⟩)
  | sent view chat => if screen.1 = chat then (screen.1, view) else screen
  | _ => screen

/-- An answer that says what is on the screen. -/
def Answer.shows : Answer → Bool
  | transcript _ _ | conversations _ _ | newConversation _ | sent _ _ => true
  | _ => false

/-- The screen, once the answers on their way have come. -/
@[grind =]
def System.settled : ConversationId × View :=
  s.answers.foldl Answer.show s.shell.screen

/-- An answer after which the transcript is read again. -/
def Answer.rereads : Answer → Bool
  | conversations _ rereads => rereads
  | notFound | notSent _ => true
  | _ => false

/-- A read of the transcript is due: it was asked for, or an answer or an event on its way, or the
stream when it comes back, asks for one. -/
def Due : Prop :=
  s.shell.live = false ∨ (∃ clears, .getTranscript clears ∈ s.requests) ∨
    (∃ a ∈ s.answers, a.rereads = true) ∨ (∃ id, .conversationChanged id ∈ s.stream) ∨
    ∃ turn, .assistantDone s.core.current turn ∈ s.stream

/-- A read of the transcript that clears a chat's words is not answered. -/
def Clearing (chat : ConversationId) : Prop :=
  .getTranscript (some chat) ∈ s.requests ∨ ∃ view, .transcript view (some chat) ∈ s.answers

/-- The shell has neither words nor calls of a chat. -/
def Blank (chat : ConversationId) : Prop :=
  (s.shell.streaming chat).getD "" = "" ∧ (s.shell.liveCalls chat).getD [] = []

/-- A chat's end may be lost: there is nothing to clear, or it will be cleared. -/
def MayLose (es : List Event) : Prop :=
  ∀ chat turn, .assistantDone chat turn ∈ es → Blank s chat ∨ Clearing s chat

/-- What is asked of an event that is delivered: a chat's turn is not heard of while the words of
the one before are to be cleared, and the end of a turn of the chat that Core has current finds it
on the screen, or a read is due. -/
def Heeds (es : List Event) : Event → Prop
  | .turnChanged chat _ state => isEnded state = false → ¬Clearing s chat
  | .assistantDelta chat _ _ | .toolCallStarted chat _ _ => ¬Clearing s chat
  | .assistantDone chat _ =>
    chat = s.core.current → chat = s.shell.currentConversation ∨ Due { s with stream := es }
  | _ => True

/-- What is asked of a step. -/
def Meets : Step → Prop
  | .core (.ends chat _) => s.shell.live = false → Blank s chat ∨ Clearing s chat
  | .core (.switches _) => s.shell.live = false → .listConversations ∈ s.requests
  | .core (.rereads _) => (s.core.turns s.core.current).isSome = true ∨ Due s
  | .core _ => True
  | .takes i _ => ∀ chat, s.requests[i]? = some (.deleteConversation chat) →
    s.shell.live = false → Blank s chat ∨ Clearing s chat
  | .answered i => ∀ a, s.answers[i]? = some a → a.shows = true →
    ∀ b ∈ s.answers.take i, b.shows = false
  | .event => ∀ e es, s.stream = e :: es → Heeds s es e
  | .drops => MayLose s s.stream ∧ ((∃ id, .conversationChanged id ∈ s.stream) →
    s.settled.1 = s.core.current ∨ .listConversations ∈ s.requests)
  | .asks (.send _) => s.shell.currentConversation = s.core.current ∨ Due s
  | _ => True

end Shown

/-- Each step of a run is as is asked of it. -/
def Allowed (s : System) : List Step → Prop
  | [] => True
  | step :: steps => Meets s step ∧ Allowed (s.step step) steps

/-! ### The turns of a chat -/

section Turns

variable {s : System} {es es' : List Event} {e : Event} {ended : ConversationId → ℕ}
variable {heard : ConversationId → Option ℕ} {chat : ConversationId} {turn : ℕ}

/-- An event is of the turn that has not ended. -/
def Fits (ended : ConversationId → ℕ) : Event → Prop
  | .turnChanged chat turn state => isEnded state = false → turn = ended chat
  | .assistantDelta chat turn _ | .toolCallStarted chat turn _ | .toolCallFinished chat turn _ _
  | .assistantDone chat turn => turn = ended chat
  | .conversationChanged _ => True

/-- Each event of a stream is of the turn that has not ended by then. -/
def Follows (ended : ConversationId → ℕ) : List Event → Prop
  | [] => True
  | e :: es => Fits ended e ∧ Follows (advance ended [e]) es

theorem advance_cons (ended : ConversationId → ℕ) (e : Event) (es : List Event) :
    advance ended (e :: es) = advance (advance ended [e]) es := by
  cases e <;> rfl

theorem advance_append (ended : ConversationId → ℕ) (es es' : List Event) :
    advance ended (es ++ es') = advance (advance ended es) es' := by
  induction es generalizing ended with
  | nil => rfl
  | cons e es ih => rw [List.cons_append, advance_cons, ih, ← advance_cons]

theorem follows_append : Follows ended (es ++ es') ↔
    Follows ended es ∧ Follows (advance ended es) es' := by
  induction es generalizing ended with
  | nil => exact (true_and _).symm.to_iff
  | cons e es ih =>
    rw [List.cons_append, Follows, Follows, ih, advance_cons ended e es, and_assoc]

theorem unheard_cons (heard : ConversationId → Option ℕ) (e : Event) (es : List Event) :
    unheard heard (e :: es) = unheard (unheard heard [e]) es := by
  cases e <;> rfl

theorem lose_cons (s : System) (e : Event) (es : List Event) :
    s.lose (e :: es) = (s.lose [e]).lose es := by
  rw [System.lose, unheard_cons, advance_cons]
  rfl

/-- The turn that an event tells something of. -/
def Event.tells : Event → Option (ConversationId × ℕ)
  | assistantDelta chat turn _ | toolCallStarted chat turn _ => some (chat, turn)
  | _ => none

/-- What is shown of each chat is what was delivered of the turn that was heard of last. -/
structure Heard (s : System) : Prop where
  turn : ∀ chat turn, s.heard chat = some turn → turn = s.ended chat ∧ ¬Clearing s chat ∧
    (s.shell.streaming chat).getD "" = wordsOf chat turn s.delivered ∧
    (s.shell.liveCalls chat).getD [] = callsOf chat turn s.delivered
  silent : ∀ chat, s.heard chat = none → Clearing s chat ∨ Blank s chat
  past : ∀ e ∈ s.delivered, ∀ chat turn, e.tells = some (chat, turn) →
    turn < s.ended chat ∨ turn = s.ended chat ∧ s.heard chat = some turn

/-- The end of a chat's turn, told or lost: nothing is left of it that was heard. -/
theorem Heard.over {s' : System} (h : Heard s)
    (hheard : s'.heard = Function.update s.heard chat none)
    (hended : s'.ended = Function.update s.ended chat (s.ended chat + 1))
    (hsaid : ∀ c t, wordsOf c t s'.delivered = wordsOf c t s.delivered ∧
      callsOf c t s'.delivered = callsOf c t s.delivered)
    (htells : ∀ e ∈ s'.delivered, e ∈ s.delivered ∨ e.tells = none)
    (hchat : Clearing s' chat ∨ Blank s' chat)
    (hother : ∀ c, c ≠ chat → (Clearing s' c ↔ Clearing s c) ∧
      s'.shell.streaming c = s.shell.streaming c ∧ s'.shell.liveCalls c = s.shell.liveCalls c) :
    Heard s' := by
  have hheardAt : ∀ c, s'.heard c = if c = chat then none else s.heard c := fun c => by
    rw [hheard, Function.update_apply]
  have hendedAt : ∀ c, s'.ended c = if c = chat then s.ended chat + 1 else s.ended c :=
    fun c => by rw [hended, Function.update_apply]
  refine ⟨fun c t ht => ?_, fun c hc => ?_, fun e he c t ht => ?_⟩
  · rw [hheardAt] at ht
    split at ht
    · cases ht
    · next hne =>
      obtain ⟨hclearing, hstreaming, hcalls⟩ := hother c hne
      rw [hendedAt, if_neg hne, hclearing, hstreaming, hcalls, (hsaid c t).1, (hsaid c t).2]
      exact h.turn c t ht
  · rw [hheardAt] at hc
    split at hc
    · next heq => exact heq ▸ hchat
    · next hne =>
      obtain ⟨hclearing, hstreaming, hcalls⟩ := hother c hne
      rw [hclearing, Blank, hstreaming, hcalls]
      exact h.silent c hc
  · obtain hold | hnone := htells e he
    · rw [hheardAt, hendedAt]
      obtain hlt | ⟨heq, hsome⟩ := h.past e hold c t ht
      · left
        split
        · next hc => exact Nat.lt_succ_of_lt (hc ▸ hlt)
        · exact hlt
      · split
        · next hc => exact .inl (Nat.lt_succ_of_le (Nat.le_of_eq (hc ▸ heq)))
        · exact .inr ⟨heq, hsome⟩
    · rw [hnone] at ht
      cases ht

theorem Heard.lose_one (h : Heard s) (hlose : MayLose s [e]) : Heard (s.lose [e]) := by
  cases e with
  | assistantDone chat turn =>
    exact h.over rfl rfl (fun _ _ => ⟨rfl, rfl⟩) (fun _ => .inl)
      (hlose chat turn List.mem_cons_self).symm fun _ _ => ⟨Iff.rfl, rfl, rfl⟩
  | _ => exact ⟨h.turn, h.silent, h.past⟩

theorem Heard.lose (h : Heard s) (hlose : MayLose s es) : Heard (s.lose es) := by
  induction es generalizing s with
  | nil => exact ⟨h.turn, h.silent, h.past⟩
  | cons e es ih =>
    rw [lose_cons]
    have hone : Heard (s.lose [e]) := h.lose_one fun chat turn hmem =>
      hlose chat turn (List.mem_cons.mpr (.inl (List.mem_singleton.mp hmem)))
    exact ih hone fun chat turn hmem => hlose chat turn (List.mem_cons_of_mem _ hmem)

/-- The stream carries on from what was delivered or lost, up to where Core is. -/
structure Carried (s : System) : Prop where
  follows : Follows s.ended s.stream
  reaches : advance s.ended s.stream = s.core.ended
  down : s.shell.live = false → s.stream = []

/-- What is shown of a chat's turn, wherever the requests are that clear nothing. -/
theorem Heard.frame {s' : System} (h : Heard s) (hheard : s'.heard = s.heard)
    (hended : s'.ended = s.ended) (hdelivered : s'.delivered = s.delivered)
    (hstreaming : s'.shell.streaming = s.shell.streaming)
    (hcalls : s'.shell.liveCalls = s.shell.liveCalls)
    (hclearing : ∀ chat, Clearing s' chat ↔ Clearing s chat) : Heard s' := by
  refine ⟨fun chat turn ht => ?_, fun chat hc => ?_, fun e he chat turn htells => ?_⟩
  · rw [hclearing, hstreaming, hcalls, hdelivered, hended]
    exact h.turn chat turn (hheard ▸ ht)
  · rw [hclearing, Blank, hstreaming, hcalls]
    exact h.silent chat (hheard ▸ hc)
  · rw [hended, hheard]
    exact h.past e (hdelivered ▸ he) chat turn htells

theorem Heard.emit (h : Heard s) (hlose : s.shell.live = false → MayLose s es) :
    Heard (s.emit es) := by
  rw [System.emit]
  split
  · exact ⟨h.turn, h.silent, h.past⟩
  · next hlive => exact h.lose (hlose (Bool.eq_false_iff.mpr hlive))

theorem Carried.emit {core : Chats} (h : Carried s) (hfollows : Follows s.core.ended es)
    (hended : core.ended = advance s.core.ended es) : Carried ({ s with core }.emit es) := by
  rw [System.emit]
  split
  · next hlive =>
    have hall : Follows s.ended (s.stream ++ es) :=
      follows_append.mpr ⟨h.follows, h.reaches.symm ▸ hfollows⟩
    have htop : advance s.ended (s.stream ++ es) = core.ended := by
      rw [advance_append, h.reaches, hended]
    exact ⟨hall, htop, fun hdown => absurd hlive (Bool.eq_false_iff.mp hdown)⟩
  · next hlive =>
    have hstream := h.down (Bool.eq_false_iff.mpr hlive)
    have hreaches := h.reaches
    rw [hstream] at hreaches
    change s.ended = s.core.ended at hreaches
    refine ⟨?_, ?_, fun _ => hstream⟩
    · change Follows (advance s.ended es) s.stream
      rw [hstream]
      trivial
    · change advance (advance s.ended es) s.stream = core.ended
      rw [hstream, hended, ← hreaches]
      rfl

/-! ### Events that are delivered -/

theorem wordsOf_snoc (chat : ConversationId) (turn : ℕ) (es : List Event) (e : Event) :
    wordsOf chat turn (es ++ [e]) = match e with
      | .assistantDelta c t text =>
        if c = chat ∧ t = turn then wordsOf chat turn es ++ text else wordsOf chat turn es
      | _ => wordsOf chat turn es := by
  rw [wordsOf, List.foldl_append]
  rfl

theorem callsOf_snoc (chat : ConversationId) (turn : ℕ) (es : List Event) (e : Event) :
    callsOf chat turn (es ++ [e]) = match e with
      | .toolCallStarted c t call =>
        if c = chat ∧ t = turn then callsOf chat turn es ++ [call] else callsOf chat turn es
      | .toolCallFinished c t id outcome =>
        if c = chat ∧ t = turn then withOutcome id outcome (callsOf chat turn es)
        else callsOf chat turn es
      | _ => callsOf chat turn es := by
  rw [callsOf, List.foldl_append]
  rfl

/-- Nothing was delivered of a turn of which no event tells. -/
theorem wordsOf_untold (h : ∀ e ∈ es, e.tells ≠ some (chat, turn)) :
    wordsOf chat turn es = "" ∧ callsOf chat turn es = [] := by
  induction es using List.reverseRecOn with
  | nil => exact ⟨rfl, rfl⟩
  | append_singleton es e ih =>
    obtain ⟨hwords, hcalls⟩ := ih fun e' he' => h e' (List.mem_append_left _ he')
    have htells := h e (List.mem_append_right _ List.mem_cons_self)
    rw [wordsOf_snoc, callsOf_snoc, hwords, hcalls]
    cases e with
    | assistantDelta c t text =>
      refine ⟨if_neg fun heq => htells ?_, rfl⟩
      rw [Event.tells, heq.1, heq.2]
    | toolCallStarted c t call =>
      refine ⟨rfl, if_neg fun heq => htells ?_⟩
      rw [Event.tells, heq.1, heq.2]
    | toolCallFinished c t id outcome =>
      refine ⟨rfl, ?_⟩
      dsimp only
      split <;> rfl
    | _ => exact ⟨rfl, rfl⟩

/-- What is shown of a chat, where nothing is to be cleared, is of the turn that has not ended. -/
theorem Heard.shown (h : Heard s) (hturn : turn = s.ended chat) (hclear : ¬Clearing s chat) :
    (s.shell.streaming chat).getD "" = wordsOf chat turn s.delivered ∧
      (s.shell.liveCalls chat).getD [] = callsOf chat turn s.delivered := by
  cases hheard : s.heard chat with
  | none =>
    have hblank := (h.silent chat hheard).resolve_left hclear
    have huntold : ∀ e ∈ s.delivered, e.tells ≠ some (chat, turn) := fun e he htells => by
      obtain hlt | ⟨-, hsome⟩ := h.past e he chat turn htells
      · exact absurd hturn (Nat.ne_of_lt hlt)
      · rw [hheard] at hsome
        cases hsome
    obtain ⟨hwords, hcalls⟩ := wordsOf_untold huntold
    exact ⟨hblank.1.trans hwords.symm, hblank.2.trans hcalls.symm⟩
  | some t =>
    obtain ⟨ht, -, hown⟩ := h.turn chat t hheard
    rw [hturn, ← ht]
    exact hown

/-- An event of a chat's turn is delivered. -/
theorem Heard.hears {s' : System} (h : Heard s) (hturn : turn = s.ended chat)
    (hclear : ¬Clearing s chat) (hheard : s'.heard = Function.update s.heard chat (some turn))
    (hended : s'.ended = s.ended) (hclearing : ∀ c, Clearing s' c ↔ Clearing s c)
    (hdelivered : s'.delivered = s.delivered ++ [e])
    (htells : ∀ c t, e.tells = some (c, t) → c = chat ∧ t = turn)
    (hown : (s'.shell.streaming chat).getD "" = wordsOf chat turn s'.delivered ∧
      (s'.shell.liveCalls chat).getD [] = callsOf chat turn s'.delivered)
    (hother : ∀ c, c ≠ chat → s'.shell.streaming c = s.shell.streaming c ∧
      s'.shell.liveCalls c = s.shell.liveCalls c ∧
      (∀ t, wordsOf c t s'.delivered = wordsOf c t s.delivered) ∧
      ∀ t, callsOf c t s'.delivered = callsOf c t s.delivered) : Heard s' := by
  have hat : ∀ c, s'.heard c = if c = chat then some turn else s.heard c := fun c => by
    rw [hheard, Function.update_apply]
  refine ⟨fun c t ht => ?_, fun c hc => ?_, fun e' he' c t ht => ?_⟩
  · rw [hat] at ht
    rw [hended, hclearing]
    split at ht
    · next heq =>
      cases ht
      exact heq ▸ ⟨hturn, hclear, hown⟩
    · next hne =>
      obtain ⟨hstreaming, hcalls, hwords, hcallsOf⟩ := hother c hne
      rw [hstreaming, hcalls, hwords, hcallsOf]
      exact h.turn c t ht
  · rw [hat] at hc
    split at hc
    · cases hc
    · next hne =>
      obtain ⟨hstreaming, hcalls, -⟩ := hother c hne
      rw [hclearing, Blank, hstreaming, hcalls]
      exact h.silent c hc
  · rw [hended, hat]
    rw [hdelivered] at he'
    obtain hold | hnew := List.mem_append.mp he'
    · obtain hlt | ⟨heq, hsome⟩ := h.past e' hold c t ht
      · exact .inl hlt
      · refine .inr ⟨heq, ?_⟩
        split
        · next hc => rw [hturn, heq, hc]
        · exact hsome
    · obtain ⟨rfl, rfl⟩ := htells c t (List.mem_singleton.mp hnew ▸ ht)
      exact .inr ⟨hturn, if_pos rfl⟩

theorem clearing_ask (s : System) (requests : List Request) (chat : ConversationId) :
    Clearing (s.ask requests) chat ↔ Clearing s chat ∨ .getTranscript (some chat) ∈ requests := by
  rw [Clearing, Clearing, System.ask]
  dsimp only
  rw [List.mem_append, or_right_comm]

/-- What is asked for that clears nothing. -/
theorem Heard.ask {requests : List Request} (h : Heard s)
    (hclears : ∀ chat, .getTranscript (some chat) ∉ requests) : Heard (s.ask requests) :=
  h.frame rfl rfl rfl rfl rfl fun chat =>
    (clearing_ask s requests chat).trans (or_iff_left (hclears chat))

theorem mem_snoc_tells (htells : e.tells = none) :
    ∀ e' ∈ es ++ [e], e' ∈ es ∨ e'.tells = none := fun e' he' =>
  (List.mem_append.mp he').imp_right fun hnew => by rw [List.mem_singleton.mp hnew, htells]

/-- An event that nothing is shown of. -/
theorem Heard.unsaid (h : Heard s) (htells : e.tells = none)
    (hwords : ∀ c t, wordsOf c t (s.delivered ++ [e]) = wordsOf c t s.delivered)
    (hcalls : ∀ c t, callsOf c t (s.delivered ++ [e]) = callsOf c t s.delivered) :
    Heard { s with delivered := s.delivered ++ [e] } := by
  refine ⟨fun c t ht => ?_, h.silent, fun e' he' c t ht => ?_⟩
  · rw [hwords, hcalls]
    exact h.turn c t ht
  · obtain hold | hnone := mem_snoc_tells htells e' he'
    · exact h.past e' hold c t ht
    · rw [hnone] at ht
      cases ht

/-- The end of a turn is told: the words go when the transcript has been read, or at once where
the chat is not shown. -/
theorem Heard.done {rest : List Event} (h : Heard s) (chat : ConversationId) (turn : ℕ) :
    Heard (({ s with
      stream := rest
      delivered := s.delivered ++ [.assistantDone chat turn]
      heard := heardOn s.heard (.assistantDone chat turn)
      ended := advance s.ended [.assistantDone chat turn] } : System).onEvent
        (.assistantDone chat turn)) := by
  have hsaid : ∀ c t,
      wordsOf c t (s.delivered ++ [.assistantDone chat turn]) = wordsOf c t s.delivered ∧
        callsOf c t (s.delivered ++ [.assistantDone chat turn]) = callsOf c t s.delivered :=
    fun c t => ⟨wordsOf_snoc c t s.delivered _, callsOf_snoc c t s.delivered _⟩
  by_cases hscreen : chat = s.shell.currentConversation
  · rw [System.onEvent, if_pos hscreen]
    refine h.over rfl rfl hsaid (mem_snoc_tells rfl) (.inl ?_) fun c hne => ⟨?_, rfl, rfl⟩
    · exact (clearing_ask _ _ _).mpr (.inr List.mem_cons_self)
    · refine (clearing_ask _ _ _).trans (or_iff_left fun hnew => ?_)
      obtain heq | hlist := List.mem_cons.mp hnew
      · cases heq
        exact hne rfl
      · cases List.mem_singleton.mp hlist
  · rw [System.onEvent, if_neg hscreen]
    refine h.over rfl rfl hsaid (mem_snoc_tells rfl) (.inr ⟨?_, ?_⟩) fun c hne =>
      ⟨?_, Function.update_of_ne hne _ _, Function.update_of_ne hne _ _⟩
    · change (Function.update s.shell.streaming chat none chat).getD "" = ""
      rw [Function.update_self]
      rfl
    · change (Function.update s.shell.liveCalls chat none chat).getD [] = []
      rw [Function.update_self]
      rfl
    · refine (clearing_ask _ _ _).trans (or_iff_left fun hnew => ?_)
      cases List.mem_singleton.mp hnew

/-- **An event that is delivered.** -/
theorem Heard.deliver {rest : List Event} (h : Heard s) (hfits : Fits s.ended e)
    (hheeds : Heeds s rest e) :
    Heard (({ s with
      stream := rest
      delivered := s.delivered ++ [e]
      heard := heardOn s.heard e
      ended := advance s.ended [e] } : System).onEvent e) := by
  cases e with
  | turnChanged c t state =>
    cases hover : isEnded state with
    | true =>
      exact (h.unsaid (e := .turnChanged c t state) rfl (fun c' t' => wordsOf_snoc c' t' _ _)
        fun c' t' => callsOf_snoc c' t' _ _).frame (if_pos hover) rfl rfl rfl rfl fun _ => Iff.rfl
    | false =>
      have hclear := hheeds hover
      have hshown := h.shown (hfits hover) hclear
      refine h.hears (hfits hover) hclear ?_ rfl (fun _ => Iff.rfl) rfl
        (fun _ _ ht => nomatch ht) ?_ fun c' _ => ⟨rfl, rfl, fun t' => ?_, fun t' => ?_⟩
      · change heardOn s.heard (.turnChanged c t state) = _
        rw [heardOn, hover]
        rfl
      · change _ = wordsOf c t (s.delivered ++ [_]) ∧ _ = callsOf c t (s.delivered ++ [_])
        rw [wordsOf_snoc, callsOf_snoc]
        exact hshown
      · exact wordsOf_snoc c' t' s.delivered _
      · exact callsOf_snoc c' t' s.delivered _
  | assistantDelta c t text =>
    have hshown := h.shown hfits hheeds
    refine h.hears hfits hheeds rfl rfl (fun _ => Iff.rfl) rfl (fun c' t' ht => ?_) ?_
      fun c' hne => ⟨?_, rfl, fun t' => ?_, fun t' => ?_⟩
    · cases ht
      exact ⟨rfl, rfl⟩
    · change (Function.update s.shell.streaming c _ c).getD "" = wordsOf c t (s.delivered ++ [_]) ∧
        _ = callsOf c t (s.delivered ++ [_])
      rw [wordsOf_snoc, callsOf_snoc, Function.update_self, hshown.1]
      exact ⟨(if_pos ⟨rfl, rfl⟩).symm, hshown.2⟩
    · exact Function.update_of_ne hne _ _
    · exact (wordsOf_snoc c' t' s.delivered _).trans (if_neg fun heq => hne heq.1.symm)
    · exact callsOf_snoc c' t' s.delivered _
  | toolCallStarted c t call =>
    have hshown := h.shown hfits hheeds
    refine h.hears hfits hheeds rfl rfl (fun _ => Iff.rfl) rfl (fun c' t' ht => ?_) ?_
      fun c' hne => ⟨rfl, ?_, fun t' => ?_, fun t' => ?_⟩
    · cases ht
      exact ⟨rfl, rfl⟩
    · change _ = wordsOf c t (s.delivered ++ [_]) ∧
        (Function.update s.shell.liveCalls c _ c).getD [] = callsOf c t (s.delivered ++ [_])
      rw [wordsOf_snoc, callsOf_snoc, Function.update_self, hshown.2]
      exact ⟨hshown.1, (if_pos ⟨rfl, rfl⟩).symm⟩
    · exact Function.update_of_ne hne _ _
    · exact wordsOf_snoc c' t' s.delivered _
    · exact (callsOf_snoc c' t' s.delivered _).trans (if_neg fun heq => hne heq.1.symm)
  | toolCallFinished c t id outcome =>
    have hcallsAt : ∀ c', Function.update s.shell.liveCalls c
        (some (withOutcome id outcome ((s.shell.liveCalls c).getD []))) c' =
          if c' = c then some (withOutcome id outcome ((s.shell.liveCalls c).getD []))
          else s.shell.liveCalls c' := fun c' => Function.update_apply _ _ _ _
    refine ⟨fun c' t' ht => ?_, fun c' hc => ?_, fun e he c' t' htells => ?_⟩
    · obtain ⟨hturn, hclear, hwords, hcalls⟩ := h.turn c' t' ht
      refine ⟨hturn, hclear, hwords.trans
        (wordsOf_snoc c' t' s.delivered (.toolCallFinished c t id outcome)).symm, ?_⟩
      change (Function.update s.shell.liveCalls c _ c').getD [] = callsOf c' t' (s.delivered ++ [_])
      rw [callsOf_snoc, hcallsAt]
      dsimp only
      split
      · next heq =>
        subst heq
        change t = s.ended c' at hfits
        rw [if_pos ⟨rfl, hfits.trans hturn.symm⟩, ← hcalls]
        rfl
      · next hne => rw [if_neg fun heq => hne heq.1.symm, hcalls]
    · obtain hclear | ⟨hwords, hcalls⟩ := h.silent c' hc
      · exact .inl hclear
      · refine .inr ⟨hwords, ?_⟩
        change (Function.update s.shell.liveCalls c _ c').getD [] = []
        rw [hcallsAt]
        split
        · next heq =>
          rw [← heq, hcalls]
          rfl
        · exact hcalls
    · obtain hold | hnew := List.mem_append.mp he
      · exact h.past e hold c' t' htells
      · rw [List.mem_singleton.mp hnew] at htells
        cases htells
  | assistantDone c t => exact h.done c t
  | conversationChanged current =>
    refine Heard.ask ((h.unsaid (e := .conversationChanged current) rfl
      (fun c' t' => wordsOf_snoc c' t' _ _) fun c' t' => callsOf_snoc c' t' _ _).frame
      rfl rfl rfl rfl rfl fun _ => Iff.rfl) fun c' hnew => ?_
    obtain heq | hlist := List.mem_cons.mp hnew
    · cases heq
    · cases List.mem_singleton.mp hlist

/-! ### What the shell leaves as it is -/

@[simp]
theorem onEvent_core (s : System) (e : Event) : (s.onEvent e).core = s.core := by
  cases e with
  | assistantDone chat turn =>
    rw [System.onEvent]
    split <;> rfl
  | _ => rfl

@[simp]
theorem onEvent_stream (s : System) (e : Event) : (s.onEvent e).stream = s.stream := by
  cases e with
  | assistantDone chat turn =>
    rw [System.onEvent]
    split <;> rfl
  | _ => rfl

@[simp]
theorem onEvent_ended (s : System) (e : Event) : (s.onEvent e).ended = s.ended := by
  cases e with
  | assistantDone chat turn =>
    rw [System.onEvent]
    split <;> rfl
  | _ => rfl

@[simp]
theorem onEvent_live (s : System) (e : Event) : (s.onEvent e).shell.live = s.shell.live := by
  cases e with
  | assistantDone chat turn =>
    rw [System.onEvent]
    split <;> rfl
  | _ => rfl

/-- What an answer leaves: Core, the stream, and what was heard. -/
theorem receive_leaves (s : System) (a : Answer) : (s.receive a).core = s.core ∧
    (s.receive a).stream = s.stream ∧ (s.receive a).ended = s.ended ∧
    (s.receive a).answers = s.answers ∧ (s.receive a).shell.live = s.shell.live := by
  cases a with
  | transcript view clears => cases clears <;> exact ⟨rfl, rfl, rfl, rfl, rfl⟩
  | sent view chat =>
    rw [System.receive]
    split <;> exact ⟨rfl, rfl, rfl, rfl, rfl⟩
  | continued chat ok => cases ok <;> exact ⟨rfl, rfl, rfl, rfl, rfl⟩
  | _ => exact ⟨rfl, rfl, rfl, rfl, rfl⟩

theorem Carried.deliver {rest : List Event} (h : Carried s) (hstream : s.stream = e :: rest) :
    Carried (({ s with
      stream := rest
      delivered := s.delivered ++ [e]
      heard := heardOn s.heard e
      ended := advance s.ended [e] } : System).onEvent e) := by
  obtain ⟨hfollows, hreaches, hdown⟩ := h
  rw [hstream] at hfollows hreaches hdown
  refine ⟨?_, ?_, fun hlive => ?_⟩
  · rw [onEvent_ended, onEvent_stream]
    exact hfollows.2
  · rw [onEvent_ended, onEvent_stream, onEvent_core]
    rw [advance_cons] at hreaches
    exact hreaches
  · rw [onEvent_live] at hlive
    cases hdown hlive

/-! ### Answers -/

section Answers

variable {answers : List Answer} {a : Answer}

/-- A list without one of its entries. -/
theorem eraseIdx_split {α : Type} {l : List α} {i : ℕ} {x : α} (h : l[i]? = some x) :
    l = l.take i ++ x :: l.drop (i + 1) ∧ l.eraseIdx i = l.take i ++ l.drop (i + 1) := by
  obtain ⟨hi, hx⟩ := List.getElem?_eq_some_iff.mp h
  refine ⟨?_, List.eraseIdx_eq_take_drop_succ l i⟩
  rw [← hx, List.getElem_cons_drop, List.take_append_drop]

theorem mem_of_eraseIdx {α : Type} {l : List α} {i : ℕ} {x : α} (h : l[i]? = some x) (y : α) :
    y ∈ l ↔ y = x ∨ y ∈ l.eraseIdx i := by
  obtain ⟨hl, herase⟩ := eraseIdx_split h
  rw [herase, List.mem_append]
  conv_lhs => rw [hl]
  rw [List.mem_append, List.mem_cons, or_left_comm]

/-- An answer that clears nothing is taken off. -/
theorem Heard.without (h : Heard s) (hmem : ∀ x, x ∈ s.answers ↔ x = a ∨ x ∈ answers)
    (hclears : ∀ view chat, a ≠ .transcript view (some chat)) : Heard { s with answers } := by
  refine h.frame rfl rfl rfl rfl rfl fun chat => or_congr Iff.rfl (exists_congr fun view => ?_)
  rw [hmem]
  exact (or_iff_right (hclears view chat).symm).symm

/-- A read of the transcript that clears a chat's words has been answered. -/
theorem Heard.cleared {view : View} (h : Heard s)
    (hmem : ∀ x, x ∈ s.answers ↔ x = .transcript view (some chat) ∨ x ∈ answers) :
    Heard (({ s with answers } : System).receive (.transcript view (some chat))) := by
  have hwas : Clearing s chat := .inr ⟨view, (hmem _).mpr (.inl rfl)⟩
  have hstreaming : ∀ c, Function.update s.shell.streaming chat none c =
      if c = chat then none else s.shell.streaming c := fun c => Function.update_apply _ _ _ _
  have hliveCalls : ∀ c, Function.update s.shell.liveCalls chat none c =
      if c = chat then none else s.shell.liveCalls c := fun c => Function.update_apply _ _ _ _
  refine ⟨fun c t ht => ?_, fun c hc => ?_, h.past⟩
  · obtain ⟨hturn, hclear, hwords, hcalls⟩ := h.turn c t ht
    have hne : c ≠ chat := fun heq => hclear (heq ▸ hwas)
    refine ⟨hturn, ?_, ?_, ?_⟩
    · rintro (hasked | ⟨v, hanswer⟩)
      · exact hclear (.inl hasked)
      · exact hclear (.inr ⟨v, (hmem _).mpr (.inr hanswer)⟩)
    · change (Function.update s.shell.streaming chat none c).getD "" = _
      rw [hstreaming, if_neg hne]
      exact hwords
    · change (Function.update s.shell.liveCalls chat none c).getD [] = _
      rw [hliveCalls, if_neg hne]
      exact hcalls
  · change _ ∨ (Function.update s.shell.streaming chat none c).getD "" = "" ∧
      (Function.update s.shell.liveCalls chat none c).getD [] = []
    rw [hstreaming, hliveCalls]
    split
    · exact .inr ⟨rfl, rfl⟩
    · next hne =>
      obtain (hasked | ⟨v, hanswer⟩) | hblank := h.silent c hc
      · exact .inl (.inl hasked)
      · obtain heq | hleft := (hmem _).mp hanswer
        · cases heq
          exact absurd rfl hne
        · exact .inl (.inr ⟨v, hleft⟩)
      · exact .inr hblank

/-- **An answer that has come.** -/
theorem Heard.receive (h : Heard s) (hmem : ∀ x, x ∈ s.answers ↔ x = a ∨ x ∈ answers) :
    Heard (({ s with answers } : System).receive a) := by
  have hsame : ∀ s' : System, ∀ chat, Clearing s' chat ↔ Clearing s' chat := fun _ _ => Iff.rfl
  cases a with
  | transcript view clears =>
    cases clears with
    | none => exact (h.without hmem fun _ _ heq => by cases heq).frame rfl rfl rfl rfl rfl (hsame _)
    | some chat => exact h.cleared hmem
  | conversations current rereads =>
    have hleft := h.without hmem fun _ _ heq => by cases heq
    refine Heard.ask (hleft.frame rfl rfl rfl rfl rfl (hsame _)) fun chat hasked => ?_
    cases rereads with
    | true => cases List.mem_singleton.mp hasked
    | false => cases hasked
  | newConversation current =>
    exact (h.without hmem fun _ _ heq => by cases heq).frame rfl rfl rfl rfl rfl (hsame _)
  | notFound =>
    have hleft := h.without hmem fun _ _ heq => by cases heq
    exact hleft.ask fun chat hasked => by cases List.mem_singleton.mp hasked
  | turns turns =>
    exact (h.without hmem fun _ _ heq => by cases heq).frame rfl rfl rfl rfl rfl (hsame _)
  | sent view chat =>
    have hleft := h.without hmem fun _ _ heq => by cases heq
    refine Heard.ask (hleft.frame rfl rfl rfl ?_ ?_ (hsame _)) fun chat hasked => by
      cases List.mem_singleton.mp hasked
    · dsimp only
      split <;> rfl
    · dsimp only
      split <;> rfl
  | notSent chat =>
    have hleft := h.without hmem fun _ _ heq => by cases heq
    refine Heard.ask (hleft.frame rfl rfl rfl rfl rfl (hsame _)) fun chat hasked => by
      cases List.mem_singleton.mp hasked
  | continued chat ok =>
    have hleft := h.without hmem fun _ _ heq => by cases heq
    cases ok with
    | true => exact hleft
    | false => exact hleft.frame rfl rfl rfl rfl rfl (hsame _)

theorem Carried.receive (h : Carried s) : Carried (({ s with answers } : System).receive a) := by
  obtain ⟨hcore, hstream, hended, -, hlive⟩ := receive_leaves { s with answers } a
  refine ⟨?_, ?_, fun hdown => ?_⟩
  · rw [hended, hstream]
    exact h.follows
  · rw [hended, hstream, hcore]
    exact h.reaches
  · rw [hlive] at hdown
    rw [hstream]
    exact h.down hdown

end Answers

/-! ### Core's part -/

section Serving

variable {requests : List Request} {r : Request} {k : Chats}

theorem Heard.withCore (h : Heard s) : Heard { s with core := k } :=
  h.frame rfl rfl rfl rfl rfl fun _ => Iff.rfl

theorem Heard.reply {a : Answer} (h : Heard s)
    (hclears : ∀ view chat, a ≠ .transcript view (some chat)) : Heard (s.reply a) := by
  refine h.frame rfl rfl rfl rfl rfl fun chat => or_congr Iff.rfl (exists_congr fun view => ?_)
  rw [System.reply, List.mem_append, List.mem_singleton]
  exact or_iff_left (hclears view chat).symm

theorem Heard.unasked (h : Heard s) (hmem : ∀ x, x ∈ s.requests ↔ x = r ∨ x ∈ requests)
    (hclears : ∀ chat, r ≠ .getTranscript (some chat)) : Heard { s with requests } := by
  refine h.frame rfl rfl rfl rfl rfl fun chat => or_congr ?_ Iff.rfl
  rw [hmem]
  exact (or_iff_right (hclears chat).symm).symm

theorem Heard.begins (h : Heard s) (chat : ConversationId) (view : View) (state : TurnState) :
    Heard (s.begins chat view state) :=
  (h.withCore (k := _)).emit fun _ _ _ hmem => nomatch List.mem_singleton.mp hmem

theorem Heard.shows (h : Heard s) (current : ConversationId) : Heard (s.shows current) :=
  (h.withCore (k := _)).emit fun _ _ _ hmem => nomatch List.mem_singleton.mp hmem

theorem Heard.ends (h : Heard s) (how : TurnState)
    (hlose : s.shell.live = false → Blank s chat ∨ Clearing s chat) : Heard (s.ends chat how) := by
  refine (h.withCore (k := _)).emit fun hdown c t hmem => ?_
  obtain heq | hturn := List.mem_cons.mp hmem
  · cases heq
    exact hlose hdown
  · cases List.mem_singleton.mp hturn

theorem Heard.forget (h : Heard s) (hlose : s.shell.live = false → Blank s chat ∨ Clearing s chat) :
    Heard (s.forget chat) := by
  rw [System.forget]
  split
  · exact h.ends .stopped hlose
  · exact h

/-- **A request that Core takes.** -/
theorem Heard.serve (h : Heard s) (outcome : Outcome)
    (hmem : ∀ x, x ∈ s.requests ↔ x = r ∨ x ∈ requests)
    (hlose : ∀ chat, r = .deleteConversation chat → s.shell.live = false →
      Blank s chat ∨ Clearing s chat) :
    Heard (({ s with requests } : System).serve outcome r) := by
  cases r with
  | getTranscript clears =>
    refine h.frame rfl rfl rfl rfl rfl fun chat => ?_
    rw [Clearing, Clearing, hmem]
    change _ ∨ (∃ view, _ ∈ s.answers ++ [_]) ↔ _
    -- The read was on its way to Core, and is on its way back.
    constructor
    · rintro (hasked | ⟨view, hanswer⟩)
      · exact .inl (.inr hasked)
      · obtain hold | hnew := List.mem_append.mp hanswer
        · exact .inr ⟨view, hold⟩
        · cases List.mem_singleton.mp hnew
          exact .inl (.inl rfl)
    · rintro ((heq | hasked) | ⟨view, hanswer⟩)
      · cases heq
        exact .inr ⟨_, List.mem_append_right _ List.mem_cons_self⟩
      · exact .inl hasked
      · exact .inr ⟨view, List.mem_append_left _ hanswer⟩
  | listConversations =>
    exact (h.unasked hmem fun _ heq => by cases heq).reply fun _ _ heq => by cases heq
  | listTurns =>
    exact (h.unasked hmem fun _ heq => by cases heq).reply fun _ _ heq => by cases heq
  | newConversation =>
    have hleft := h.unasked hmem fun _ heq => by cases heq
    exact (hleft.withCore.shows outcome.id).reply fun _ _ heq => by cases heq
  | selectConversation id =>
    have hleft := h.unasked hmem fun _ heq => by cases heq
    rw [System.serve]
    split
    · exact (hleft.shows id).reply fun _ _ heq => by cases heq
    · exact hleft.reply fun _ _ heq => by cases heq
  | deleteConversation id =>
    have hleft := h.unasked hmem fun _ heq => by cases heq
    have hforgot : Heard (({ s with requests } : System).forget id) := by
      refine hleft.forget fun hdown => ?_
      obtain hblank | hclear := hlose id rfl hdown
      · exact .inl hblank
      · refine .inr (hclear.imp (fun hasked => ?_) fun hanswer => hanswer)
        exact ((hmem _).mp hasked).resolve_left nofun
    rw [System.serve]
    split
    · exact (hforgot.shows outcome.id).reply fun _ _ heq => by cases heq
    · exact hforgot.reply fun _ _ heq => by cases heq
  | sendMessage text chat =>
    have hleft := h.unasked hmem fun _ heq => by cases heq
    rw [System.serve]
    split
    · exact (hleft.begins chat outcome.view outcome.state).reply fun _ _ heq => by cases heq
    · exact hleft.reply fun _ _ heq => by cases heq
  | continueAnswer chat =>
    have hleft := h.unasked hmem fun _ heq => by cases heq
    rw [System.serve]
    split
    · exact (hleft.begins chat outcome.view outcome.state).reply fun _ _ heq => by cases heq
    · exact hleft.reply fun _ _ heq => by cases heq

theorem Carried.begins (h : Carried s) (chat : ConversationId) (view : View) (state : TurnState) :
    Carried (s.begins chat view state) :=
  h.emit ⟨fun _ => rfl, trivial⟩ rfl

theorem Carried.shows (h : Carried s) (current : ConversationId) : Carried (s.shows current) :=
  h.emit ⟨trivial, trivial⟩ rfl

theorem Carried.ends (h : Carried s) {how : TurnState} (hover : isEnded how = true) :
    Carried (s.ends chat how) := by
  refine h.emit ⟨rfl, fun hgoing => ?_, trivial⟩ rfl
  rw [hover] at hgoing
  cases hgoing

theorem Carried.forget (h : Carried s) : Carried (s.forget chat) := by
  rw [System.forget]
  split
  · exact h.ends rfl
  · exact h

theorem Carried.frame {s' : System} (h : Carried s) (hended : s'.ended = s.ended)
    (hstream : s'.stream = s.stream) (hcore : s'.core.ended = s.core.ended)
    (hlive : s'.shell.live = s.shell.live) : Carried s' := by
  refine ⟨?_, ?_, fun hdown => ?_⟩
  · rw [hended, hstream]
    exact h.follows
  · rw [hended, hstream, hcore]
    exact h.reaches
  · rw [hlive] at hdown
    rw [hstream]
    exact h.down hdown

theorem Carried.reply (h : Carried s) (a : Answer) : Carried (s.reply a) :=
  h.frame rfl rfl rfl rfl

theorem Carried.serve (h : Carried s) (outcome : Outcome) (r : Request) :
    Carried (({ s with requests } : System).serve outcome r) := by
  have hleft : Carried { s with requests } := h.frame rfl rfl rfl rfl
  cases r with
  | getTranscript clears => exact hleft.reply _
  | listConversations => exact hleft.reply _
  | listTurns => exact hleft.reply _
  | newConversation =>
    have hopened : Carried { s with requests, core := s.core.at outcome.id ⟨[], 0⟩ none } :=
      hleft.frame rfl rfl rfl rfl
    exact (hopened.shows outcome.id).reply _
  | selectConversation id =>
    rw [System.serve]
    split
    · exact (hleft.shows id).reply _
    · exact hleft.reply _
  | deleteConversation id =>
    rw [System.serve]
    split
    · exact (hleft.forget.shows outcome.id).reply _
    · exact hleft.forget.reply _
  | sendMessage text chat =>
    rw [System.serve]
    split
    · exact (hleft.begins chat outcome.view outcome.state).reply _
    · exact hleft.reply _
  | continueAnswer chat =>
    rw [System.serve]
    split
    · exact (hleft.begins chat outcome.view outcome.state).reply _
    · exact hleft.reply _

end Serving

/-- **An act of Core's.** -/
theorem Heard.act (h : Heard s) {act : Act} (hmeets : Meets s (.core act)) : Heard (s.act act) := by
  cases act with
  | begins chat view state =>
    rw [System.act]
    split
    · exact h.begins chat view state
    · exact h
  | ends chat how =>
    rw [System.act]
    split
    · exact h.ends how hmeets
    · exact h
  | switches current => exact h.shows current
  | moves chat state => exact h.withCore.emit fun _ _ _ hmem => nomatch List.mem_singleton.mp hmem
  | speaks chat text => exact h.emit fun _ _ _ hmem => nomatch List.mem_singleton.mp hmem
  | calls chat call => exact h.emit fun _ _ _ hmem => nomatch List.mem_singleton.mp hmem
  | called chat id outcome => exact h.emit fun _ _ _ hmem => nomatch List.mem_singleton.mp hmem
  | keeps chat view => exact h.withCore
  | rereads readFrom => exact h.withCore

theorem Carried.act (h : Carried s) (act : Act) : Carried (s.act act) := by
  cases act with
  | begins chat view state =>
    rw [System.act]
    split
    · exact h.begins chat view state
    · exact h
  | ends chat how =>
    rw [System.act]
    split
    · next hover => exact h.ends hover
    · exact h
  | switches current => exact h.shows current
  | moves chat state => exact h.emit ⟨fun _ => rfl, trivial⟩ rfl
  | speaks chat text => exact h.emit ⟨rfl, trivial⟩ rfl
  | calls chat call => exact h.emit ⟨rfl, trivial⟩ rfl
  | called chat id outcome => exact h.emit ⟨rfl, trivial⟩ rfl
  | keeps chat view => exact h.frame rfl rfl rfl rfl
  | rereads readFrom => exact h.frame rfl rfl rfl rfl

/-! ### The stream's state -/

theorem Heard.setLive (h : Heard s) (live : Bool) : Heard (s.setLive live) := by
  rw [System.setLive]
  split
  · refine Heard.ask (h.frame rfl rfl rfl rfl rfl fun _ => Iff.rfl) fun chat hasked => ?_
    obtain heq | hread := List.mem_cons.mp hasked
    · cases heq
    · cases List.mem_singleton.mp hread
  · exact h.frame rfl rfl rfl rfl rfl fun _ => Iff.rfl

theorem Heard.drop (h : Heard s) (hlose : MayLose s s.stream) : Heard s.drop :=
  Heard.setLive (s := { s.lose s.stream with stream := [] })
    ((h.lose hlose).frame rfl rfl rfl rfl rfl fun _ => Iff.rfl) false

theorem Carried.drop (h : Carried s) : Carried s.drop :=
  ⟨trivial, h.reaches, fun _ => rfl⟩

theorem Carried.comesBack (h : Carried s) : Carried (s.setLive true) := by
  rw [System.setLive]
  split
  · exact ⟨h.follows, h.reaches, fun hdown => nomatch hdown⟩
  · exact ⟨h.follows, h.reaches, fun hdown => nomatch hdown⟩

theorem Heard.onAsk (h : Heard s) (ask : Ask) : Heard (s.onAsk ask) := by
  have hasks : ∀ request, (∀ chat, request ≠ Request.getTranscript (some chat)) →
      ∀ chat, .getTranscript (some chat) ∉ [request] := fun request hne chat hmem =>
    hne chat (List.mem_singleton.mp hmem).symm
  cases ask with
  | send text =>
    exact Heard.ask (h.frame rfl rfl rfl rfl rfl fun _ => Iff.rfl)
      (hasks _ fun _ heq => by cases heq)
  | continueAnswer =>
    exact Heard.ask (h.frame rfl rfl rfl rfl rfl fun _ => Iff.rfl)
      (hasks _ fun _ heq => by cases heq)
  | newConversation => exact h.ask (hasks _ fun _ heq => by cases heq)
  | selectConversation id => exact h.ask (hasks _ fun _ heq => by cases heq)
  | deleteConversation id => exact h.ask (hasks _ fun _ heq => by cases heq)

theorem Carried.onAsk (h : Carried s) (ask : Ask) : Carried (s.onAsk ask) := by
  cases ask <;> exact h.frame rfl rfl rfl rfl

/-- **One step** keeps what is shown of each chat its turn's. -/
theorem Heard.step (h : Heard s) (hcarried : Carried s) {step : Step} (hmeets : Meets s step) :
    Heard (s.step step) := by
  cases step with
  | core act =>
    rw [System.step]
    split
    · exact h.act hmeets
    · exact h
  | takes i outcome =>
    rw [System.step]
    split
    · next r hr =>
      refine h.serve outcome (mem_of_eraseIdx hr) fun chat heq => ?_
      exact hmeets chat (heq ▸ hr)
    · exact h
  | answered i =>
    rw [System.step]
    split
    · next a ha => exact h.receive (mem_of_eraseIdx ha)
    · exact h
  | event =>
    rw [System.step, System.deliver]
    split
    · exact h
    · next e es hstream =>
      have hfollows := hcarried.follows
      rw [hstream] at hfollows
      exact h.deliver hfollows.1 (hmeets e es hstream)
  | drops => exact h.drop hmeets.1
  | comesBack => exact h.setLive true
  | asks ask => exact h.onAsk ask

theorem Carried.step (h : Carried s) (step : Step) : Carried (s.step step) := by
  cases step with
  | core act =>
    rw [System.step]
    split
    · exact h.act act
    · exact h
  | takes i outcome =>
    rw [System.step]
    split
    · next r hr => exact h.serve outcome r
    · exact h
  | answered i =>
    rw [System.step]
    split
    · next a ha => exact h.receive
    · exact h
  | event =>
    rw [System.step, System.deliver]
    split
    · exact h
    · next e es hstream => exact h.deliver hstream
  | drops => exact h.drop
  | comesBack => exact h.comesBack
  | asks ask => exact h.onAsk ask

/-! ### The chat on screen -/

/-- The chats that a stream says are current. -/
def changesOf (es : List Event) : List ConversationId :=
  es.filterMap fun e => match e with
    | .conversationChanged current => some current
    | _ => none

/-- The last of the stream's words on the current chat is right; where it has none, the answers are,
or the list of chats is asked for. -/
structure Named (s : System) : Prop where
  last : ∀ id, (changesOf s.stream).getLast? = some id → id = s.core.current
  names : changesOf s.stream = [] → s.settled.1 = s.core.current ∨ .listConversations ∈ s.requests

/-- A read is due, the chat's turn is being written or its message on its way, or the transcript
will be right. -/
def Shown (s : System) : Prop :=
  Due s ∨ (s.core.turns s.core.current).isSome = true ∨
    (∃ text, .sendMessage text s.core.current ∈ s.requests) ∨
    s.settled.2 = s.core.views s.core.current

theorem foldl_show_fst (answers : List Answer) {x y : ConversationId × View} (h : x.1 = y.1) :
    (answers.foldl Answer.show x).1 = (answers.foldl Answer.show y).1 := by
  induction answers generalizing x y with
  | nil => exact h
  | cons a answers ih =>
    refine ih ?_
    cases a with
    | sent view chat =>
      rw [Answer.show, Answer.show, h]
      split
      · rfl
      · exact h
    | conversations current rereads => rfl
    | newConversation current => rfl
    | _ => exact h

theorem foldl_show_hidden {answers : List Answer} (h : ∀ a ∈ answers, a.shows = false)
    (x : ConversationId × View) : answers.foldl Answer.show x = x := by
  induction answers with
  | nil => rfl
  | cons a answers ih =>
    have hhidden := h a List.mem_cons_self
    have hshow : Answer.show x a = x := by
      cases a <;> first | rfl | cases hhidden
    rw [List.foldl_cons, hshow]
    exact ih fun b hb => h b (List.mem_cons_of_mem _ hb)

theorem receive_screen (s : System) (a : Answer) :
    (s.receive a).shell.screen = Answer.show s.shell.screen a := by
  cases a with
  | transcript view clears => cases clears <;> rfl
  | sent view chat =>
    change (if s.shell.currentConversation = chat then s.shell.read view else s.shell).screen =
      if s.shell.currentConversation = chat then _ else _
    split <;> rfl
  | continued chat ok => cases ok <;> rfl
  | _ => rfl

/-- An answer that comes in its order leaves what the screen will be. -/
theorem receive_settled {a : Answer} {i : ℕ} (ha : s.answers[i]? = some a)
    (horder : a.shows = true → ∀ b ∈ s.answers.take i, b.shows = false) :
    (({ s with answers := s.answers.eraseIdx i } : System).receive a).settled = s.settled := by
  obtain ⟨hall, herase⟩ := eraseIdx_split ha
  have hleft := receive_leaves { s with answers := s.answers.eraseIdx i } a
  rw [System.settled, hleft.2.2.2.1, receive_screen, System.settled, herase]
  conv_rhs => rw [hall]
  rw [List.foldl_append, List.foldl_append, List.foldl_cons]
  change List.foldl Answer.show (List.foldl Answer.show (Answer.show s.shell.screen a) _) _ = _
  cases hshows : a.shows with
  | true => rw [foldl_show_hidden (horder hshows), foldl_show_hidden (horder hshows)]
  | false =>
    have hsame : ∀ x, Answer.show x a = x := fun x => by
      cases a <;> first | rfl | cases hshows
    rw [hsame, hsame]

theorem reply_settled (s : System) (a : Answer) :
    (s.reply a).settled = Answer.show s.settled a := by
  rw [System.settled, System.reply, List.foldl_append]
  rfl

theorem changesOf_append (es es' : List Event) :
    changesOf (es ++ es') = changesOf es ++ changesOf es' :=
  List.filterMap_append

/-- What an emission leaves: all but the stream, and what was lost of it. -/
theorem emit_leaves (s : System) (es : List Event) : (s.emit es).core = s.core ∧
    (s.emit es).requests = s.requests ∧ (s.emit es).answers = s.answers ∧
    (s.emit es).shell = s.shell := by
  rw [System.emit]
  split <;> exact ⟨rfl, rfl, rfl, rfl⟩

theorem emit_settled (s : System) (es : List Event) : (s.emit es).settled = s.settled := by
  obtain ⟨-, -, hanswers, hshell⟩ := emit_leaves s es
  rw [System.settled, System.settled, hanswers, hshell]

theorem mem_emit {es : List Event} (h : e ∈ s.stream) : e ∈ (s.emit es).stream := by
  rw [System.emit]
  split
  · exact List.mem_append_left _ h
  · exact h

theorem emit_down {es : List Event} (hdown : s.shell.live = false) :
    (s.emit es).stream = s.stream := by
  rw [System.emit, hdown]
  rfl

theorem emit_up {es : List Event} (hlive : s.shell.live = true) :
    (s.emit es).stream = s.stream ++ es :=
  congrArg System.stream (if_pos hlive)

theorem changesOf_emit {es : List Event} (hes : changesOf es = []) :
    changesOf (s.emit es).stream = changesOf s.stream := by
  cases hlive : s.shell.live with
  | true => rw [emit_up hlive, changesOf_append, hes, List.append_nil]
  | false => rw [emit_down hlive]

/-! ### What is said of the current chat -/

theorem Named.frame {s' : System} (h : Named s) (hcurrent : s'.core.current = s.core.current)
    (hstream : changesOf s'.stream = changesOf s.stream) (hsettled : s'.settled.1 = s.settled.1)
    (hlist : .listConversations ∈ s.requests → .listConversations ∈ s'.requests) : Named s' := by
  refine ⟨fun id hlast => ?_, fun hnone => ?_⟩
  · rw [hcurrent]
    exact h.last id (hstream ▸ hlast)
  · rw [hcurrent, hsettled]
    exact (h.names (hstream ▸ hnone)).imp id hlist

/-- Core says that another chat is current: on the stream, or in an answer. -/
theorem Named.shows (hcarried : Carried s) {a : Answer} {id : ConversationId}
    (hanswer : ∀ screen, (Answer.show screen a).1 = id) : Named ((s.shows id).reply a) := by
  have hcurrent : ((s.shows id).reply a).core.current = id :=
    congrArg Chats.current (emit_leaves _ _).1
  refine ⟨fun c hlast => ?_, fun _ => .inl ?_⟩
  · rw [hcurrent]
    change (changesOf (s.shows id).stream).getLast? = some c at hlast
    cases hlive : s.shell.live with
    | true =>
      have hstream : (s.shows id).stream = s.stream ++ [.conversationChanged id] :=
        congrArg System.stream (if_pos hlive)
      have hchanges : changesOf (s.shows id).stream = changesOf s.stream ++ [id] := by
        rw [hstream, changesOf_append]
        rfl
      rw [hchanges, List.getLast?_append] at hlast
      exact (Option.some.inj hlast).symm
    | false =>
      have hstream : (s.shows id).stream = [] :=
        (emit_down (s := { s with core := { s.core with current := id } }) hlive).trans
          (hcarried.down hlive)
      rw [hstream] at hlast
      cases hlast
  · rw [reply_settled, hanswer, hcurrent]

/-- Another client switches. -/
theorem Named.switches {id : ConversationId} (hcarried : Carried s)
    (hlist : s.shell.live = false → .listConversations ∈ s.requests) : Named (s.shows id) := by
  have hcurrent : (s.shows id).core.current = id := congrArg Chats.current (emit_leaves _ _).1
  cases hlive : s.shell.live with
  | true =>
    have hstream : (s.shows id).stream = s.stream ++ [.conversationChanged id] :=
      congrArg System.stream (if_pos hlive)
    have hchanges : changesOf (s.shows id).stream = changesOf s.stream ++ [id] := by
      rw [hstream, changesOf_append]
      rfl
    refine ⟨fun c hlast => ?_, fun hnone => ?_⟩
    · rw [hchanges, List.getLast?_append] at hlast
      rw [hcurrent]
      exact (Option.some.inj hlast).symm
    · rw [hchanges] at hnone
      exact absurd hnone (List.append_ne_nil_of_right_ne_nil _ (List.cons_ne_nil _ _))
  | false =>
    have hstream : (s.shows id).stream = [] :=
      (emit_down (s := { s with core := { s.core with current := id } }) hlive).trans
        (hcarried.down hlive)
    refine ⟨fun c hlast => ?_, fun _ => .inr ?_⟩
    · rw [hstream] at hlast
      cases hlast
    · rw [System.shows, (emit_leaves _ _).2.1]
      exact hlist hlive

/-- Events that do not say what chat is current. -/
theorem Named.emit {k : Chats} {es : List Event} (hes : changesOf es = []) (h : Named s)
    (hcurrent : k.current = s.core.current) : Named ({ s with core := k }.emit es) := by
  obtain ⟨hcore, hrequests, -, -⟩ := emit_leaves { s with core := k } es
  refine h.frame ?_ (changesOf_emit hes) (congrArg Prod.fst (emit_settled _ _)) fun hasked => ?_
  · rw [hcore]
    exact hcurrent
  · rw [hrequests]
    exact hasked

theorem Named.begins (h : Named s) (chat : ConversationId) (view : View) (state : TurnState) :
    Named (s.begins chat view state) := by
  have hes : changesOf [.turnChanged chat (s.core.ended chat) state] = [] := rfl
  exact Named.emit hes h rfl

theorem Named.ends (h : Named s) (chat : ConversationId) (how : TurnState) :
    Named (s.ends chat how) := by
  have hes : changesOf [.assistantDone chat (s.core.ended chat),
    .turnChanged chat (s.core.ended chat) how] = [] := rfl
  exact Named.emit hes h rfl

theorem Named.reply (h : Named s) {a : Answer}
    (hanswer : ∀ screen, (Answer.show screen a).1 = screen.1) : Named (s.reply a) :=
  h.frame rfl rfl ((congrArg Prod.fst (reply_settled s a)).trans (hanswer _)) id

theorem Named.forget (h : Named s) (chat : ConversationId) : Named (s.forget chat) := by
  rw [System.forget]
  split
  · exact h.ends chat .stopped
  · exact h

theorem Named.serve {requests : List Request} {r : Request} (h : Named s) (hcarried : Carried s)
    (outcome : Outcome) (hmem : ∀ x, x ∈ s.requests ↔ x = r ∨ x ∈ requests) :
    Named (({ s with requests } : System).serve outcome r) := by
  have hcarried' : Carried { s with requests } := hcarried.frame rfl rfl rfl rfl
  have hleft : r ≠ .listConversations → Named { s with requests } := fun hne =>
    h.frame rfl rfl rfl fun hasked => ((hmem _).mp hasked).resolve_left hne.symm
  cases r with
  | getTranscript clears => exact (hleft nofun).reply fun _ => rfl
  | listConversations =>
    refine ⟨h.last, fun _ => .inl ?_⟩
    rw [System.serve, reply_settled]
    rfl
  | listTurns => exact (hleft nofun).reply fun _ => rfl
  | newConversation =>
    have hopened : Carried { s with requests, core := s.core.at outcome.id ⟨[], 0⟩ none } :=
      hcarried.frame rfl rfl rfl rfl
    exact Named.shows hopened fun _ => rfl
  | selectConversation id =>
    rw [System.serve]
    split
    · exact Named.shows hcarried' fun _ => rfl
    · exact (hleft nofun).reply fun _ => rfl
  | deleteConversation id =>
    rw [System.serve]
    split
    · exact Named.shows hcarried'.forget fun _ => rfl
    · exact ((hleft nofun).forget id).reply fun _ => rfl
  | sendMessage text chat =>
    rw [System.serve]
    split
    · refine Named.reply ((hleft nofun).begins chat outcome.view outcome.state) fun screen => ?_
      rw [Answer.show]
      split <;> rfl
    · exact (hleft nofun).reply fun _ => rfl
  | continueAnswer chat =>
    rw [System.serve]
    split
    · exact Named.reply ((hleft nofun).begins chat outcome.view outcome.state) fun _ => rfl
    · exact (hleft nofun).reply fun _ => rfl

theorem Named.act (h : Named s) (hcarried : Carried s) {act : Act} (hmeets : Meets s (.core act)) :
    Named (s.act act) := by
  cases act with
  | begins chat view state =>
    rw [System.act]
    split
    · exact h.begins chat view state
    · exact h
  | ends chat how =>
    rw [System.act]
    split
    · exact h.ends chat how
    · exact h
  | switches current => exact Named.switches hcarried hmeets
  | moves chat state =>
    have hes : changesOf [.turnChanged chat (s.core.ended chat) state] = [] := rfl
    exact Named.emit hes h rfl
  | speaks chat text =>
    have hes : changesOf [.assistantDelta chat (s.core.ended chat) text] = [] := rfl
    exact Named.emit (k := s.core) hes h rfl
  | calls chat call =>
    have hes : changesOf [.toolCallStarted chat (s.core.ended chat) call] = [] := rfl
    exact Named.emit (k := s.core) hes h rfl
  | called chat id outcome =>
    have hes : changesOf [.toolCallFinished chat (s.core.ended chat) id outcome] = [] := rfl
    exact Named.emit (k := s.core) hes h rfl
  | keeps chat view => exact h.frame rfl rfl rfl id
  | rereads readFrom => exact h.frame rfl rfl rfl id

/-- Requests that are added. -/
theorem mem_receive {a : Answer} {x : Request} (h : x ∈ s.requests) :
    x ∈ (s.receive a).requests := by
  cases a with
  | transcript view clears => exact h
  | newConversation current => exact h
  | turns turns => exact h
  | continued chat ok => cases ok <;> exact h
  | _ => exact List.mem_append_left _ h

theorem mem_onEvent {x : Request} (h : x ∈ s.requests) : x ∈ (s.onEvent e).requests := by
  cases e with
  | assistantDone chat turn =>
    rw [System.onEvent]
    split <;> exact List.mem_append_left _ h
  | conversationChanged current => exact List.mem_append_left _ h
  | _ => exact h

theorem Named.receive {a : Answer} {i : ℕ} (h : Named s) (ha : s.answers[i]? = some a)
    (horder : a.shows = true → ∀ b ∈ s.answers.take i, b.shows = false) :
    Named (({ s with answers := s.answers.eraseIdx i } : System).receive a) := by
  obtain ⟨hcore, hstream, -, -, -⟩ := receive_leaves { s with answers := s.answers.eraseIdx i } a
  refine h.frame (congrArg Chats.current hcore) (congrArg changesOf hstream)
    (congrArg Prod.fst (receive_settled ha horder)) fun hasked => mem_receive hasked

/-- The screen is left by what does not say that another chat is current. -/
theorem onEvent_settled (he : changesOf [e] = []) : (s.onEvent e).settled = s.settled := by
  cases e with
  | assistantDone chat turn =>
    rw [System.onEvent]
    split <;> rfl
  | conversationChanged current => cases he
  | _ => rfl

theorem Named.deliver {rest : List Event} (h : Named s) (hstream : s.stream = e :: rest)
    (delivered : List Event) (heard : ConversationId → Option ℕ) (ended : ConversationId → ℕ) :
    Named (({ s with stream := rest, delivered, heard, ended } : System).onEvent e) := by
  cases hes : changesOf [e] with
  | nil =>
    have hchanges : changesOf s.stream = changesOf rest := by
      rw [hstream, ← List.singleton_append, changesOf_append, hes]
      rfl
    refine h.frame (congrArg Chats.current (onEvent_core _ _)) ?_
      (congrArg Prod.fst (onEvent_settled hes)) fun hasked => mem_onEvent hasked
    rw [onEvent_stream, hchanges]
  | cons c cs =>
    cases e with
    | conversationChanged current =>
      refine ⟨fun id hlast => ?_, fun _ => .inr ?_⟩
      · refine h.last id ?_
        change (changesOf rest).getLast? = some id at hlast
        rw [hstream, ← List.singleton_append, changesOf_append, List.getLast?_append, hlast]
        rfl
      · exact List.mem_append_right _ List.mem_cons_self
    | _ => cases hes

theorem setLive_settled (s : System) (live : Bool) : (s.setLive live).settled = s.settled := by
  rw [System.setLive]
  split <;> rfl

theorem mem_setLive {x : Request} (live : Bool) (h : x ∈ s.requests) :
    x ∈ (s.setLive live).requests := by
  rw [System.setLive]
  split
  · exact List.mem_append_left _ h
  · exact h

theorem Named.drop (h : Named s) (hmeets : Meets s .drops) : Named s.drop := by
  refine ⟨fun id hlast => (nomatch hlast), fun _ => ?_⟩
  have hnames : s.settled.1 = s.core.current ∨ .listConversations ∈ s.requests := by
    by_cases hchanges : changesOf s.stream = []
    · exact h.names hchanges
    · obtain ⟨id, hid⟩ := List.exists_mem_of_ne_nil _ hchanges
      obtain ⟨e, he, hchange⟩ := List.mem_filterMap.mp hid
      refine hmeets.2 ⟨id, ?_⟩
      cases e with
      | conversationChanged current =>
        cases hchange
        exact he
      | _ => cases hchange
  exact hnames

theorem Named.comesBack (h : Named s) : Named (s.setLive true) := by
  refine h.frame ?_ ?_ (congrArg Prod.fst (setLive_settled s true)) fun hasked =>
    mem_setLive _ hasked
  · rw [System.setLive]
    split <;> rfl
  · rw [System.setLive]
    split <;> rfl

theorem Named.onAsk (h : Named s) (ask : Ask) : Named (s.onAsk ask) := by
  cases ask with
  | send text =>
    exact h.frame rfl rfl (foldl_show_fst s.answers rfl) fun hasked => List.mem_append_left _ hasked
  | _ => exact h.frame rfl rfl rfl fun hasked => List.mem_append_left _ hasked

/-! ### What is shown of it -/

section Due

variable {s' : System} {k : Chats} {a : Answer} {requests : List Request} {r : Request}

/-- A read that is due stays due. -/
theorem Due.mono (h : Due s) (hcurrent : s'.core.current = s.core.current)
    (hlive : s.shell.live = false → s'.shell.live = false)
    (hrequests : ∀ clears, .getTranscript clears ∈ s.requests → .getTranscript clears ∈ s'.requests)
    (hanswers : ∀ a ∈ s.answers, a ∈ s'.answers) (hstream : ∀ e ∈ s.stream, e ∈ s'.stream) :
    Due s' := by
  obtain hdown | ⟨clears, hasked⟩ | ⟨a, ha, hrereads⟩ | ⟨id, hid⟩ | ⟨turn, hturn⟩ := h
  · exact .inl (hlive hdown)
  · exact .inr (.inl ⟨clears, hrequests clears hasked⟩)
  · exact .inr (.inr (.inl ⟨a, hanswers a ha, hrereads⟩))
  · exact .inr (.inr (.inr (.inl ⟨id, hstream _ hid⟩)))
  · exact .inr (.inr (.inr (.inr ⟨turn, hcurrent ▸ hstream _ hturn⟩)))

theorem Due.emit (h : Due s) (hcurrent : k.current = s.core.current) (es : List Event) :
    Due ({ s with core := k }.emit es) := by
  obtain ⟨hcore, hrequests, hanswers, hshell⟩ := emit_leaves { s with core := k } es
  refine h.mono ?_ (fun hdown => ?_) (fun clears hasked => ?_) (fun a ha => ?_) fun e he => ?_
  · rw [hcore]
    exact hcurrent
  · rw [hshell]
    exact hdown
  · rw [hrequests]
    exact hasked
  · rw [hanswers]
    exact ha
  · exact mem_emit (s := { s with core := k }) he

theorem Due.reply (h : Due s) (a : Answer) : Due (s.reply a) :=
  h.mono rfl id (fun _ hasked => hasked) (fun _ ha => List.mem_append_left _ ha) fun _ he => he

theorem due_rereads (s : System) (hrereads : a.rereads = true) : Due (s.reply a) :=
  .inr (.inr (.inl ⟨a, List.mem_append_right _ List.mem_cons_self, hrereads⟩))

theorem due_ask (s : System) (clears : Option ConversationId)
    (hr : .getTranscript clears ∈ requests) : Due (s.ask requests) :=
  .inr (.inl ⟨clears, List.mem_append_right _ hr⟩)

theorem due_shows (s : System) (id : ConversationId) : Due (s.shows id) := by
  cases hlive : s.shell.live with
  | true =>
    have hstream : (s.shows id).stream = s.stream ++ [.conversationChanged id] :=
      congrArg System.stream (if_pos hlive)
    refine .inr (.inr (.inr (.inl ⟨id, ?_⟩)))
    rw [hstream]
    exact List.mem_append_right _ List.mem_cons_self
  | false =>
    refine .inl ?_
    rw [System.shows, (emit_leaves _ _).2.2.2]
    exact hlive

/-- The chat that is current has its turn ended. -/
theorem due_ends (s : System) (how : TurnState) : Due (s.ends s.core.current how) := by
  cases hlive : s.shell.live with
  | true =>
    have hstream : (s.ends s.core.current how).stream = s.stream ++
        [.assistantDone s.core.current (s.core.ended s.core.current),
          .turnChanged s.core.current (s.core.ended s.core.current) how] :=
      congrArg System.stream (if_pos hlive)
    have hcore : (s.ends s.core.current how).core = { s.core with
        turns := Function.update s.core.turns s.core.current none
        ended := Function.update s.core.ended s.core.current (s.core.ended s.core.current + 1) } :=
      (emit_leaves _ _).1
    refine .inr (.inr (.inr (.inr ⟨s.core.ended s.core.current, ?_⟩)))
    rw [hstream, hcore]
    exact List.mem_append_right _ List.mem_cons_self
  | false =>
    refine .inl ?_
    rw [System.ends, (emit_leaves _ _).2.2.2]
    exact hlive

/-- What is shown stays so, where Core's chat and what is on its way stay. -/
theorem Shown.mono (h : Shown s) (hcurrent : s'.core.current = s.core.current)
    (hdue : Due s → Due s')
    (hturns : (s.core.turns s.core.current).isSome = true →
      (s'.core.turns s.core.current).isSome = true)
    (hsends : ∀ text, .sendMessage text s.core.current ∈ s.requests →
      .sendMessage text s.core.current ∈ s'.requests)
    (hviews : s.settled.2 = s.core.views s.core.current →
      s'.settled.2 = s'.core.views s.core.current) : Shown s' := by
  rw [Shown, hcurrent]
  exact h.imp hdue (.imp hturns (.imp (.imp hsends) hviews))

theorem Shown.emit (h : Shown s) (hcurrent : k.current = s.core.current)
    (hturns : (s.core.turns s.core.current).isSome = true → (k.turns s.core.current).isSome = true)
    (hviews : k.views s.core.current = s.core.views s.core.current) (es : List Event) :
    Shown ({ s with core := k }.emit es) := by
  obtain ⟨hcore, hrequests, -, -⟩ := emit_leaves { s with core := k } es
  refine h.mono ?_ (fun hdue => hdue.emit hcurrent es) (fun hturn => ?_) (fun text hasked => ?_)
    fun hview => ?_
  · rw [hcore]
    exact hcurrent
  · rw [hcore]
    exact hturns hturn
  · rw [hrequests]
    exact hasked
  · rw [hcore, emit_settled]
    exact hview.trans hviews.symm

theorem Shown.reply (h : Shown s)
    (hanswer : (Answer.show s.settled a).2 = s.settled.2 ∨
      (Answer.show s.settled a).2 = s.core.views s.core.current) : Shown (s.reply a) := by
  refine h.mono rfl (fun hdue => hdue.reply a) id (fun _ hasked => hasked) fun hview => ?_
  rw [reply_settled]
  obtain hsame | hright := hanswer
  · exact hsame.trans hview
  · exact hright

theorem Shown.unasked (h : Shown s) (hmem : ∀ x, x ∈ s.requests ↔ x = r ∨ x ∈ requests)
    (hread : ∀ clears, r ≠ .getTranscript clears)
    (hsend : ∀ text, r ≠ .sendMessage text s.core.current) : Shown { s with requests } := by
  have hleft : ∀ x ∈ s.requests, r ≠ x → x ∈ requests := fun x hx hne =>
    ((hmem x).mp hx).resolve_left hne.symm
  refine h.mono rfl (fun hdue => ?_) id (fun text hasked => hleft _ hasked (hsend text)) id
  exact hdue.mono rfl id (fun clears hasked => hleft _ hasked (hread clears)) (fun _ ha => ha)
    fun _ he => he

/-- A turn begins in the chat that is current, or in another. -/
theorem Shown.begins (h : s.core.current = chat ∨ Shown s) (view : View) (state : TurnState) :
    Shown (s.begins chat view state) := by
  have hcore : (s.begins chat view state).core = s.core.at chat view (some state) :=
    (emit_leaves _ _).1
  by_cases hchat : s.core.current = chat
  · refine .inr (.inl ?_)
    rw [hcore]
    change (Function.update s.core.turns chat (some state) s.core.current).isSome = true
    rw [hchat, Function.update_self]
    rfl
  · refine Shown.emit (k := s.core.at chat view (some state)) (h.resolve_left hchat) rfl
      (fun hturn => ?_) ?_ _
    · change (Function.update s.core.turns chat (some state) s.core.current).isSome = true
      rw [Function.update_of_ne hchat]
      exact hturn
    · exact Function.update_of_ne hchat _ _

theorem Shown.ends (h : Shown s) (chat : ConversationId) (how : TurnState) :
    Shown (s.ends chat how) := by
  by_cases hchat : s.core.current = chat
  · exact .inl (hchat ▸ due_ends s how)
  · refine h.emit (k := { s.core with
      turns := Function.update s.core.turns chat none
      ended := Function.update s.core.ended chat (s.core.ended chat + 1) }) rfl
      (fun hturn => ?_) rfl _
    change (Function.update s.core.turns chat none s.core.current).isSome = true
    rw [Function.update_of_ne hchat]
    exact hturn

theorem Shown.serve (h : Shown s) (outcome : Outcome)
    (hmem : ∀ x, x ∈ s.requests ↔ x = r ∨ x ∈ requests) :
    Shown (({ s with requests } : System).serve outcome r) := by
  cases r with
  | getTranscript clears =>
    refine .inr (.inr (.inr ?_))
    rw [System.serve, reply_settled]
    rfl
  | listConversations =>
    exact (h.unasked hmem (fun _ => nofun) fun _ => nofun).reply (.inl rfl)
  | listTurns =>
    exact (h.unasked hmem (fun _ => nofun) fun _ => nofun).reply (.inl rfl)
  | newConversation =>
    refine .inr (.inr (.inr ?_))
    have hcore : (System.shows { s with requests, core := s.core.at outcome.id ⟨[], 0⟩ none }
        outcome.id).core = { s.core.at outcome.id ⟨[], 0⟩ none with current := outcome.id } :=
      (emit_leaves _ _).1
    rw [System.serve, reply_settled]
    change _ = (System.shows _ outcome.id).core.views (System.shows _ outcome.id).core.current
    rw [hcore]
    exact (Function.update_self outcome.id _ s.core.views).symm
  | selectConversation id =>
    rw [System.serve]
    split <;> exact .inl (due_rereads _ rfl)
  | deleteConversation id =>
    rw [System.serve]
    split <;> exact .inl (due_rereads _ rfl)
  | sendMessage text chat =>
    rw [System.serve]
    split
    · refine Shown.reply (Shown.begins ?_ outcome.view outcome.state) ?_
      · by_cases hchat : s.core.current = chat
        · exact .inl hchat
        · refine .inr (h.unasked hmem (fun _ => nofun) fun _ heq => ?_)
          cases heq
          exact hchat rfl
      · rw [Answer.show]
        split
        · exact .inr rfl
        · exact .inl rfl
    · exact .inl (due_rereads _ rfl)
  | continueAnswer chat =>
    have hleft := h.unasked hmem (fun _ => nofun) fun _ => nofun
    rw [System.serve]
    split
    · exact (Shown.begins (.inr hleft) outcome.view outcome.state).reply (.inl rfl)
    · exact hleft.reply (.inl rfl)

theorem Shown.act (h : Shown s) {act : Act} (hmeets : Meets s (.core act))
    (hturn : (act.inTurn.all fun chat => (s.core.turns chat).isSome) = true) :
    Shown (s.act act) := by
  cases act with
  | begins chat view state =>
    rw [System.act]
    split
    · exact Shown.begins (.inr h) view state
    · exact h
  | ends chat how =>
    rw [System.act]
    split
    · exact h.ends chat how
    · exact h
  | switches current => exact .inl (due_shows s current)
  | moves chat state =>
    refine h.emit (k := { s.core with turns := Function.update s.core.turns chat (some state) }) rfl
      (fun hgoing => ?_) rfl _
    change (Function.update s.core.turns chat (some state) s.core.current).isSome = true
    rw [Function.update_apply]
    split
    · rfl
    · exact hgoing
  | speaks chat text => exact h.emit (k := s.core) rfl id rfl _
  | calls chat call => exact h.emit (k := s.core) rfl id rfl _
  | called chat id outcome => exact h.emit (k := s.core) rfl (fun hgoing => hgoing) rfl _
  | keeps chat view =>
    by_cases hchat : s.core.current = chat
    · refine .inr (.inl ?_)
      change (Function.update s.core.turns chat (s.core.turns chat) s.core.current).isSome = true
      rw [Function.update_eq_self, hchat]
      exact hturn
    · refine h.mono rfl (fun hdue => hdue.mono rfl id (fun _ hasked => hasked) (fun _ ha => ha)
        fun _ he => he) (fun hgoing => ?_) (fun _ hasked => hasked) fun hview => ?_
      · change (Function.update s.core.turns chat (s.core.turns chat) s.core.current).isSome = true
        rw [Function.update_eq_self]
        exact hgoing
      · change s.settled.2 = Function.update s.core.views chat view s.core.current
        rw [Function.update_of_ne hchat]
        exact hview
  | rereads readFrom =>
    obtain hgoing | hdue := hmeets
    · exact .inr (.inl hgoing)
    · exact .inl (hdue.mono rfl id (fun _ hasked => hasked) (fun _ ha => ha) fun _ he => he)

/-! ### What comes to the shell -/

theorem receive_rereads (s : System) (hrereads : a.rereads = true) :
    .getTranscript none ∈ (s.receive a).requests := by
  cases a with
  | conversations current rereads =>
    change rereads = true at hrereads
    subst hrereads
    exact List.mem_append_right _ List.mem_cons_self
  | notFound => exact List.mem_append_right _ List.mem_cons_self
  | notSent chat => exact List.mem_append_right _ List.mem_cons_self
  | _ => cases hrereads

theorem Shown.receive {i : ℕ} (h : Shown s) (ha : s.answers[i]? = some a)
    (horder : a.shows = true → ∀ b ∈ s.answers.take i, b.shows = false) :
    Shown (({ s with answers := s.answers.eraseIdx i } : System).receive a) := by
  obtain ⟨hcore, hstream, -, hanswers, hlive⟩ :=
    receive_leaves { s with answers := s.answers.eraseIdx i } a
  refine h.mono (congrArg Chats.current hcore) (fun hdue => ?_) (fun hturn => ?_)
    (fun text hasked => mem_receive hasked) fun hview => ?_
  · obtain hdown | ⟨clears, hasked⟩ | ⟨b, hb, hrereads⟩ | ⟨id, hid⟩ | ⟨turn, hturn⟩ := hdue
    · exact .inl (hlive.trans hdown)
    · exact .inr (.inl ⟨clears, mem_receive hasked⟩)
    · obtain rfl | hleft := (mem_of_eraseIdx ha b).mp hb
      · exact .inr (.inl ⟨none, receive_rereads _ hrereads⟩)
      · exact .inr (.inr (.inl ⟨b, hanswers.symm ▸ hleft, hrereads⟩))
    · exact .inr (.inr (.inr (.inl ⟨id, hstream.symm ▸ hid⟩)))
    · refine .inr (.inr (.inr (.inr ⟨turn, ?_⟩)))
      rw [hstream, hcore]
      exact hturn
  · rw [hcore]
    exact hturn
  · rw [hcore, receive_settled ha horder]
    exact hview

theorem Shown.deliver {rest : List Event} (h : Shown s) (hstream : s.stream = e :: rest)
    (hheeds : Heeds s rest e) (delivered : List Event) (heard : ConversationId → Option ℕ)
    (ended : ConversationId → ℕ) :
    Shown (({ s with stream := rest, delivered, heard, ended } : System).onEvent e) := by
  -- The read that the event asked for is asked for now; the other ones stay.
  have hdone : ∀ chat turn, e = .assistantDone chat turn → chat = s.core.current →
      Due (({ s with stream := rest, delivered, heard, ended } : System).onEvent e) := by
    rintro chat turn rfl hchat
    obtain hscreen | hdue := hheeds hchat
    · rw [System.onEvent, if_pos hscreen]
      exact due_ask _ (some chat) List.mem_cons_self
    · refine hdue.mono (congrArg Chats.current (onEvent_core _ _)) (fun hdown => ?_)
        (fun clears hasked => mem_onEvent hasked) (fun a ha => ?_) fun e' he' => ?_
      · rw [onEvent_live]
        exact hdown
      · rw [System.onEvent]
        split <;> exact ha
      · rw [onEvent_stream]
        exact he'
  by_cases hchanges : changesOf [e] = []
  · refine h.mono (congrArg Chats.current (onEvent_core _ _)) (fun hdue => ?_) (fun hturn => ?_)
      (fun text hasked => mem_onEvent hasked) fun hview => ?_
    · obtain hdown | ⟨clears, hasked⟩ | ⟨a, ha, hrereads⟩ | ⟨id, hid⟩ | ⟨turn, hturn⟩ := hdue
      · refine .inl ?_
        rw [onEvent_live]
        exact hdown
      · exact .inr (.inl ⟨clears, mem_onEvent hasked⟩)
      · refine .inr (.inr (.inl ⟨a, ?_, hrereads⟩))
        cases e with
        | assistantDone chat turn =>
          rw [System.onEvent]
          split <;> exact ha
        | _ => exact ha
      · refine .inr (.inr (.inr (.inl ⟨id, ?_⟩)))
        rw [hstream] at hid
        rw [onEvent_stream]
        obtain rfl | hrest := List.mem_cons.mp hid
        · cases hchanges
        · exact hrest
      · rw [hstream] at hturn
        obtain heq | hrest := List.mem_cons.mp hturn
        · exact hdone _ turn heq.symm rfl
        · refine .inr (.inr (.inr (.inr ⟨turn, ?_⟩)))
          rw [onEvent_stream, onEvent_core]
          exact hrest
    · rw [onEvent_core]
      exact hturn
    · rw [onEvent_core, onEvent_settled hchanges]
      exact hview
  · cases e with
    | conversationChanged current =>
      exact .inl (due_ask _ none (List.mem_cons_of_mem _ List.mem_cons_self))
    | _ => exact absurd rfl hchanges

theorem Shown.comesBack (h : Shown s) : Shown (s.setLive true) := by
  rw [System.setLive]
  split
  · exact .inl (due_ask _ none (List.mem_cons_of_mem _ List.mem_cons_self))
  · next hwas =>
    have hlive : s.shell.live ≠ false := fun hdown => hwas ⟨rfl, hdown⟩
    exact h.mono rfl (fun hdue => hdue.mono rfl (fun hdown => absurd hdown hlive)
      (fun _ hasked => hasked) (fun _ ha => ha) fun _ he => he) id (fun _ hasked => hasked) id

theorem Shown.ask (h : Shown s) (requests : List Request) : Shown (s.ask requests) :=
  h.mono rfl (fun hdue => hdue.mono rfl id (fun _ hasked => List.mem_append_left _ hasked)
    (fun _ ha => ha) fun _ he => he) id (fun _ hasked => List.mem_append_left _ hasked) id

theorem Shown.onAsk (h : Shown s) {ask : Ask} (hmeets : Meets s (.asks ask)) :
    Shown (s.onAsk ask) := by
  cases ask with
  | send text =>
    obtain hscreen | hdue := hmeets
    · exact .inr (.inr (.inl ⟨text, List.mem_append_right _
        (List.mem_singleton.mpr (congrArg _ hscreen.symm))⟩))
    · exact .inl (hdue.mono rfl id (fun _ hasked => List.mem_append_left _ hasked)
        (fun _ ha => ha) fun _ he => he)
  | continueAnswer =>
    exact Shown.ask (s := { s with shell := _ })
      (h.mono rfl (fun hdue => hdue.mono rfl id (fun _ hasked => hasked) (fun _ ha => ha)
        fun _ he => he) id (fun _ hasked => hasked) id) _
  | newConversation => exact h.ask _
  | selectConversation id => exact h.ask _
  | deleteConversation id => exact h.ask _

end Due

end Turns

/-! ### Runs that are as is asked -/

/-- What every step keeps. -/
structure Kept (s : System) : Prop where
  heard : Heard s
  carried : Carried s
  named : Named s
  shown : Shown s

theorem kept_opening (core : Chats) : Kept (opening core) where
  heard := ⟨fun _ _ ht => (nomatch ht), fun _ _ => .inr ⟨rfl, rfl⟩, fun _ he => (nomatch he)⟩
  carried := ⟨trivial, rfl, fun _ => rfl⟩
  named := ⟨fun _ hlast => (nomatch hlast),
    fun _ => .inr (List.mem_cons_of_mem _ List.mem_cons_self)⟩
  shown := .inl (.inl rfl)

theorem Named.step {s : System} (h : Kept s) {step : Step} (hmeets : Meets s step) :
    Named (s.step step) := by
  cases step with
  | core act =>
    rw [System.step]
    split
    · exact h.named.act h.carried hmeets
    · exact h.named
  | takes i outcome =>
    rw [System.step]
    split
    · next r hr => exact h.named.serve h.carried outcome (mem_of_eraseIdx hr)
    · exact h.named
  | answered i =>
    rw [System.step]
    split
    · next a ha => exact h.named.receive ha (hmeets a ha)
    · exact h.named
  | event =>
    rw [System.step, System.deliver]
    split
    · exact h.named
    · next e es hstream => exact h.named.deliver hstream _ _ _
  | drops => exact h.named.drop hmeets
  | comesBack => exact h.named.comesBack
  | asks ask => exact h.named.onAsk ask

theorem Shown.step {s : System} (h : Shown s) {step : Step} (hmeets : Meets s step) :
    Shown (s.step step) := by
  cases step with
  | core act =>
    rw [System.step]
    split
    · next hturn => exact h.act hmeets hturn
    · exact h
  | takes i outcome =>
    rw [System.step]
    split
    · next r hr => exact h.serve outcome (mem_of_eraseIdx hr)
    · exact h
  | answered i =>
    rw [System.step]
    split
    · next a ha => exact h.receive ha (hmeets a ha)
    · exact h
  | event =>
    rw [System.step, System.deliver]
    split
    · exact h
    · next e es hstream => exact h.deliver hstream (hmeets e es hstream) _ _ _
  | drops => exact .inl (.inl rfl)
  | comesBack => exact h.comesBack
  | asks ask => exact h.onAsk hmeets

theorem Kept.step {s : System} (h : Kept s) {step : Step} (hmeets : Meets s step) :
    Kept (s.step step) :=
  ⟨h.heard.step h.carried hmeets, h.carried.step step, Named.step h hmeets, h.shown.step hmeets⟩

theorem Kept.run {s : System} (h : Kept s) {steps : List Step} (hall : Allowed s steps) :
    Kept (run s steps) := by
  induction steps generalizing s with
  | nil => exact h
  | cons step steps ih => exact ih (h.step hall.1) hall.2

/-- Once all has come, and no turn of the current chat is being written, the shell shows that chat
as Core has it. -/
theorem Kept.upToDate {s : System} (h : Kept s) (hsettled : Settled s) (hstream : s.stream = [])
    (hturn : s.core.turns s.core.current = none) :
    s.shell.currentConversation = s.core.current ∧ UpToDate s := by
  obtain ⟨hrequests, hanswers, hlive⟩ := hsettled
  have hscreen : s.settled = s.shell.screen := by
    rw [System.settled, hanswers]
    rfl
  have hcurrent : s.shell.currentConversation = s.core.current := by
    obtain hname | hlist := h.named.names (by rw [hstream]; rfl)
    · rw [hscreen] at hname
      exact hname
    · rw [hrequests] at hlist
      cases hlist
  have hdue : ¬Due s := by
    rintro (hdown | ⟨_, hasked⟩ | ⟨_, ha, _⟩ | ⟨_, hid⟩ | ⟨_, hend⟩)
    · rw [hlive] at hdown
      cases hdown
    · rw [hrequests] at hasked
      cases hasked
    · rw [hanswers] at ha
      cases ha
    · rw [hstream] at hid
      cases hid
    · rw [hstream] at hend
      cases hend
  refine ⟨hcurrent, ?_⟩
  obtain hread | hgoing | ⟨_, hsend⟩ | hview := h.shown
  · exact absurd hread hdue
  · rw [hturn] at hgoing
    cases hgoing
  · rw [hrequests] at hsend
    cases hsend
  · rw [hscreen] at hview
    rw [UpToDate, hcurrent, ← hview]
    exact ⟨rfl, rfl⟩

/-- **The shell shows each answer's own words**, and once all has come the chat on screen as Core
has it. -/
theorem answers_shown {core : Chats} {steps : List Step} (h : Allowed (opening core) steps) :
    OwnWords (run (opening core) steps) ∧
      (Settled (run (opening core) steps) → (run (opening core) steps).stream = [] →
        (run (opening core) steps).core.turns (run (opening core) steps).core.current = none →
        (run (opening core) steps).shell.currentConversation =
            (run (opening core) steps).core.current ∧
          UpToDate (run (opening core) steps)) := by
  have hkept := (kept_opening core).run h
  refine ⟨fun chat turn hheard => ?_, hkept.upToDate⟩
  exact (hkept.heard.turn chat turn hheard).2.2

/-- Core with two chats, one of them empty. -/
def twoChats : Chats :=
  ⟨"a", fun chat => ⟨if chat = "b" then [said "Later"] else [], 0⟩, fun _ => none, fun _ => 0⟩

/-- What Core makes of a request. -/
def taken : Outcome :=
  ⟨true, "a", ⟨[said "Hi"], 0⟩, .writing⟩

/-- Another client's message, with its word. -/
def aWord (word : String) : List Step :=
  [.core (.begins "a" ⟨[said "Hi"], 0⟩ .writing), .event, .core (.speaks "a" word), .event]

/-- Some requests are taken, and their answers come. -/
def answeredAll (n : ℕ) : List Step :=
  List.replicate n (.takes 0 taken) ++ List.replicate n (.answered 0)

@[grind =]
def opened : List Step :=
  .comesBack :: answeredAll 4

theorem allowed_word : Allowed (opening twoChats) (.comesBack :: aWord "Hello") := by
  have hclear : ∀ s : System, s.answers = [] →
      s.requests = [.getTranscript none, .listConversations, .listTurns, .getTranscript none] →
      ¬Clearing s "a" := by
    rintro s hanswers hrequests (hasked | ⟨view, hanswer⟩)
    · rw [hrequests] at hasked
      simp at hasked
    · rw [hanswers] at hanswer
      cases hanswer
  refine ⟨trivial, trivial, fun e es hstream => ?_, trivial, fun e es hstream => ?_, trivial⟩
  · cases hstream
    exact fun _ => hclear _ rfl rfl
  · cases hstream
    exact hclear _ rfl rfl

theorem allowed_opened : Allowed (opening twoChats) opened := by
  refine ⟨trivial, ?_, ?_, ?_, ?_, ?_, ?_, ?_, ?_, trivial⟩
  · exact fun chat heq => nomatch heq
  · exact fun chat heq => nomatch heq
  · exact fun chat heq => nomatch heq
  · exact fun chat heq => nomatch heq
  · exact fun a ha hshows b hb => nomatch hb
  · exact fun a ha hshows b hb => nomatch hb
  · exact fun a ha hshows b hb => nomatch hb
  · exact fun a ha hshows b hb => nomatch hb

theorem answers_shown_word :
    (OwnWords (run (opening twoChats) (.comesBack :: aWord "Hello")) ∧
      (run (opening twoChats) (.comesBack :: aWord "Hello")).heard "a" = some 0) ∧
    UpToDate (run (opening twoChats) opened) :=
  ⟨⟨And.left (answers_shown allowed_word), rfl⟩,
    And.right (And.right (answers_shown allowed_opened) ⟨rfl, rfl, rfl⟩ rfl rfl)⟩

/-! ### Runs that are not -/

/-- The next turn's word comes before the read that the last turn's end asked for is answered. -/
def early : List Step :=
  opened ++ aWord "One" ++ [.core (.ends "a" .done), .event, .event] ++ aWord "Two"

/-- The end of a turn is lost with the stream. -/
def endLost : List Step :=
  opened ++ aWord "One" ++ [.drops, .core (.ends "a" .done), .comesBack] ++ aWord "Two"

/-- A call is recorded while its turn is being written. -/
@[grind =]
def recorded : List Step :=
  opened ++ aWord "One" ++ [.core (.keeps "a" ⟨[said "Hi", said "One"], 0⟩)]

/-- An older read of the transcript is answered last. -/
def overtaken : List Step :=
  [.takes 0 taken, .core (.begins "a" ⟨[said "Hi"], 0⟩ .writing), .core (.ends "a" .done),
    .comesBack, .takes 0 taken, .takes 0 taken, .takes 0 taken,
    .answered 3, .answered 0, .answered 0, .answered 0]

/-- Another client switches while the stream is down. -/
def switchLost : List Step :=
  opened ++ [.drops, .core (.switches "b"), .comesBack] ++ answeredAll 2

/-- The model reads a chat from another place on. -/
def readElsewhere : List Step :=
  opened ++ [.core (.rereads fun _ => 3)]

/-- The end of a turn is still on the stream. -/
def onItsWay : List Step :=
  opened ++ aWord "One" ++ [.core (.ends "a" .done)]

/-- A list of the chats comes after a switch that it does not know of. -/
def setBack : List Step :=
  opened ++ aWord "One" ++ [.core (.ends "a" .done), .event, .event, .takes 1 taken,
    .core (.switches "b"), .event, .takes 0 taken, .answered 0, .answered 0,
    .takes 1 taken, .answered 0]

/-- A turn of the chat that Core has current ends while another is on the screen. -/
def endElsewhere : List Step :=
  setBack ++ [.core (.begins "b" ⟨[said "Hi", said "One"], 0⟩ .writing), .event,
    .core (.ends "b" .done), .event, .event] ++ answeredAll 2

/-- A message is sent to a chat that Core no longer has current. -/
def sentElsewhere : List Step :=
  setBack ++ [.asks (.send "Hi")] ++ answeredAll 2 ++ [.event] ++ answeredAll 1

/-- Every request has been answered, and the transcript is not what Core has. -/
def Astray (s : System) : Prop :=
  (s.requests.length = 0 ∧ s.answers.length = 0 ∧ s.shell.live = true) ∧
    (s.shell.transcript.length ≠ (s.core.views s.shell.currentConversation).messages.length ∨
      s.shell.readFrom ≠ (s.core.views s.shell.currentConversation).readFrom)

instance : DecidablePred Astray := fun _ => inferInstanceAs (Decidable (_ ∧ _))

theorem Astray.not_upToDate {s : System} (h : Astray s) : Settled s ∧ ¬UpToDate s := by
  obtain ⟨⟨hrequests, hanswers, hlive⟩, hother⟩ := h
  refine ⟨⟨List.eq_nil_of_length_eq_zero hrequests, List.eq_nil_of_length_eq_zero hanswers, hlive⟩,
    ?_⟩
  rintro ⟨htranscript, hreadFrom⟩
  obtain hlength | hread := hother
  · exact hlength (congrArg List.length htranscript)
  · exact hread hreadFrom

/-- The shell shows a turn the words of the one before, and a chat what another has or what it no
longer has. -/
theorem words_mixed :
    ¬OwnWords (run (opening twoChats) early) ∧ ¬OwnWords (run (opening twoChats) endLost) ∧
      ∀ steps ∈ [recorded, onItsWay, overtaken, switchLost, readElsewhere, endElsewhere,
        sentElsewhere], Settled (run (opening twoChats) steps) ∧
          ¬UpToDate (run (opening twoChats) steps) := by
  have hastray : ∀ steps ∈ [recorded, onItsWay, overtaken, switchLost, readElsewhere, endElsewhere,
      sentElsewhere], Astray (run (opening twoChats) steps) := by
    decide +kernel
  refine ⟨fun h => ?_, fun h => ?_, fun steps hsteps => (hastray steps hsteps).not_upToDate⟩
  · exact absurd (h "a" 1 (by decide +kernel)).1 (by decide +kernel)
  · exact absurd (h "a" 1 (by decide +kernel)).1 (by decide +kernel)

end Shell

end LocalSpace
