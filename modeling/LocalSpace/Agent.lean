import LocalSpace.Calls

/-!
# The agent loop

`agent.rs` and `turns.rs`. A turn waits in the queue, is begun when its person has no older
one and the engine has a slot (`schedule`), asks the model step by step (`askTheModel`), runs
the calls the model asks for one at a time (`goOn`), and ends (`endTurn`), after which
whoever waited may start.

Ending a turn schedules, scheduling begins turns, beginning one asks the model, and that may
end the turn at once. `scheduleFor` cuts the circle: it makes so many moves at most, and
what it begins ends through the moves left. `schedule` allows twice as many moves as there
are turns, and each turn moves at most twice.
-/

namespace LocalSpace

variable {H : Host}

/-! ### A chat's messages, wherever its person is -/

namespace Core

/-- The messages of a chat as they stand: on screen, in the working set, or in the
database. -/
def messagesOf (c : Core H) (user : UserId) (workspace : WorkspaceId)
    (conversation : ConversationId) : List ChatMessage :=
  let elsewhere := (c.store.messagesElsewhere user workspace conversation).getD []
  if c.active.user = user ∧ c.mine.workspace = workspace then
    if c.mine.conversations.current = conversation then c.mine.transcript
    else (c.mine.conversations.messagesOf conversation).getD elsewhere
  else elsewhere

/-- The turn of an id. -/
@[grind =]
def turnOf (c : Core H) (id : Nat) : Option Turn :=
  c.turns.find? fun t => t.id = id

/-- The caller's answer in a chat, being written or waiting. -/
def turnIn (c : Core H) (conversation : ConversationId) : Option Nat :=
  (c.turns.find? fun t => t.caller.user = c.active.user ∧ t.conversation = conversation).map
    Turn.id

/-- A change to one turn. -/
@[grind =]
def changeTurn (c : Core H) (id : Nat) (change : Turn → Turn) : Core H :=
  { c with turns := c.turns.map fun t => if t.id = id then change t else t }

/-- The slots taken: the turns being written. -/
@[grind =]
def written (c : Core H) : Nat :=
  c.turns.countP fun t => t.state = .writing

/-- Where the answer `t`, queued after `before`, stands: behind an older one of its
person's, behind the answers that fill the engine's slots, or written now. -/
def whereItGoes (c : Core H) (before : List Turn) (t : Turn) : TurnState :=
  if before.any fun o => o.caller.user = t.caller.user then .waitsForAnotherChat
  else if max c.cfg.slots 1 ≤ c.written then .waitsForTheModel
  else .writing

/-- The first waiting turn that does not stand where it goes, and where it goes. -/
def firstMove (c : Core H) : List Turn → List Turn → Option (Turn × TurnState)
  | _, [] => none
  | before, t :: rest =>
    if t.waiting ∧ c.whereItGoes before t ≠ t.state then some (t, c.whereItGoes before t)
    else firstMove c (before ++ [t]) rest

/-- Who is moved next. -/
def nextMove (c : Core H) : Option (Turn × TurnState) :=
  c.firstMove [] c.turns

end Core

/-- Write the transcript into the current chat. -/
def recordConversation : Program H Unit := do
  if !(← get).evalsRunning then
    let now ← nowMs
    modify fun c =>
      let r := c.mine.conversations.record H c.store c.mine.transcript now
      { c.own (fun u => { u with conversations := r.1 }) with store := r.2 }

/-- A change to a chat, written through, wherever its person is now. -/
def writeChat (user : UserId) (workspace : WorkspaceId) (conversation : ConversationId)
    (change : List ChatMessage → List ChatMessage) : Program H Unit := do
  let now ← nowMs
  let c ← get
  if c.active.user = user ∧ c.mine.workspace = workspace ∧
      c.mine.conversations.current = conversation then
    modify fun c => c.own fun u => { u with transcript := change u.transcript }
    recordConversation
  else if c.active.user = user ∧ c.mine.workspace = workspace ∧
      (c.mine.conversations.messagesOf conversation).isSome then
    modify fun c =>
      let r := c.mine.conversations.update H c.store conversation now change
      { c.own (fun u => { u with conversations := r.1 }) with store := r.2 }
  else
    modify fun c => { c with
      store := c.store.updateElsewhere H user workspace conversation now change }

def plainMessage (role : Role) (content : String) : ChatMessage :=
  ⟨role, content, [], false, "", none, []⟩

/-- What a model step leaves in the chat. -/
structure Answer where
  text : String
  thinking : String
  /-- It ended before the model finished. -/
  stopped : Bool
  cut : Option CutShort

/-- Thinking that came while carrying on joins the earlier thinking. -/
def joinThinking (earlier later : String) : String :=
  if later = "" then earlier
  else if earlier = "" then later
  else earlier ++ "\n\n" ++ later

/-- The chat, newest message first, with the answer joined to the stopped one it carries
on, if the last answer is one. -/
def joinAnswer (a : Answer) : List ChatMessage → Option (List ChatMessage)
  | [] => none
  | m :: rest =>
    if m.role = .assistant then
      if m.stopped then
        some ({ m with
          content := m.content ++ a.text
          stopped := a.stopped
          cutShort := a.cut
          thinking := joinThinking m.thinking a.thinking } :: rest)
      else none
    else (joinAnswer a rest).map (m :: ·)

/-- The chat with an answer in it. -/
def withAnswer (a : Answer) (join : Bool) (messages : List ChatMessage) : List ChatMessage :=
  match if join then joinAnswer a messages.reverse else none with
  | some joined => joined.reverse
  | none => messages ++ [{ plainMessage .assistant a.text with
      stopped := a.stopped, thinking := a.thinking, cutShort := a.cut }]

/-- The answer's words, into its chat. -/
def keep (id : Nat) (a : Answer) : Program H Unit := do
  match (← get).turnOf id with
  | none => return
  | some turn =>
    writeChat turn.caller.user turn.workspace turn.conversation (withAnswer a turn.continuing)

/-- The chat with a tool call in it. -/
def withCall (tool : String) (params : Json) (outcome : ToolOutcome)
    (messages : List ChatMessage) : List ChatMessage :=
  messages ++ [{ plainMessage .tool "" with
    toolCalls := [⟨s!"t{messages.length}", tool, params, outcome⟩] }]

def recordCall (id : Nat) (tool : String) (params : Json) (outcome : ToolOutcome) :
    Program H Unit := do
  match (← get).turnOf id with
  | none => return
  | some turn =>
    writeChat turn.caller.user turn.workspace turn.conversation (withCall tool params outcome)

/-! ### Turns -/

/-- Asks a turn to stop, and says where it was. -/
def stopTurn (id : Nat) : Program H (Option TurnState) := do
  match (← get).turnOf id with
  | none => return none
  | some turn =>
    modify fun c => c.changeTurn id fun t => { t with stop := true }
    return some turn.state

def setState (id : Nat) (state : TurnState) : Program H Unit := do
  match (← get).turnOf id with
  | none => return
  | some turn =>
    if turn.state ≠ state then
      modify fun c => c.changeTurn id fun t => { t with state := state }
      emit (.turnChanged turn.conversation state)

/-- Into Core's queue, or onto what is left to do before the request returns. -/
@[grind =]
def post (message : Internal) : Program H Unit :=
  modify fun c =>
    if c.runInline then { c with inline := c.inline ++ [message] }
    else { c with posted := c.posted ++ [message] }

/-- The plan with the steps being worked in done. -/
def settledPlan (plan : List Step) : List Step :=
  plan.map fun s => if s.status = .active then { s with status := .done } else s

/-- The run is closed: its plan settles, and what it wrote where agents propose becomes a
proposal. -/
def finishRun : Program H Unit := do
  match (← get).mine.run with
  | none => return
  | some run =>
    modify fun c => c.own fun u => { u with run := none }
    if (← get).mine.task.plan.any fun s => s.status = .active then
      changeTask fun t => { t with plan := settledPlan t.plan }
      emitTask
    let c ← get
    let mine := (c.dag.history 256).filter fun commit => commit.run = some run
    let docs := (Dag.sortDedup (mine.map Commit.doc)).filter fun d =>
      c.access.agentWrites d = .proposal
    if !docs.isEmpty then
      let summary := "; ".intercalate (mine.map Commit.diffSummary)
      modify fun c => c.own fun u => { u with
        proposals := u.proposals ++ [⟨run, docs, summary, c.cfg.user⟩] }
      notice .info s!"1 proposal from your agent: {summary} — apply or discard it"

/-- The approvals a turn waits on. -/
def Core.approvalsOf (c : Core H) (id : Nat) : List String :=
  (c.mine.pending.entries.filter fun e => e.2.turn = some id).map fun e => e.1

/-- An approval, withdrawn. -/
def withdraw (key : String) : Program H Unit := do
  modify fun c => c.own fun u => { u with pending := u.pending.erase key }
  emit (.approvalWithdrawn key)

/-- What a turn that leaves the queue leaves behind: the approval it waited on is withdrawn,
its run is closed, and its chat is told. -/
def closeTurn (turn : Turn) (how : TurnState) : Program H Unit := do
  modify fun c => { c with turns := c.turns.filter fun t => t.id ≠ turn.id }
  activate turn.caller
  let withdrawn := (← get).approvalsOf turn.id
  withdrawn.forM withdraw
  if !withdrawn.isEmpty then
    notice .info "Stopped. The change that waited for your approval was not made."
  if turn.begun then finishRun
  emit (.assistantDone turn.conversation)
  emit (.turnChanged turn.conversation how)

/-- The turn ends, and whoever waited on it may start: `sched` starts them. -/
def endWith (sched : Program H Unit) (id : Nat) (how : TurnState) : Program H Unit := do
  match (← get).turnOf id with
  | none => return
  | some turn =>
    closeTurn turn how
    sched

/-- What the words carried on are: those of the stopped answer at the chat's end. -/
def carriedOn (messages : List ChatMessage) : Option String × List ChatMessage :=
  match messages.getLast? with
  | some m =>
    if m.role = .assistant ∧ m.stopped then
      (if m.content = "" then none else some m.content, messages.dropLast)
    else (none, messages)
  | none => (none, messages)

/-- A stopped answer without a word leaves the chat. -/
def withoutEmptyStop (messages : List ChatMessage) : List ChatMessage :=
  match messages.getLast? with
  | some m =>
    if m.role = .assistant ∧ m.stopped ∧ m.content = "" then messages.dropLast else messages
  | none => messages

/-- The model is read: beside Core, or here where the request runs its own turns. -/
def readTheModel (id : Nat) (prompt : Prompt) : Program H Unit := do
  modify fun c => c.did (.asked id)
  if (← get).runInline then
    let n ← nextRead
    post (.replied id (H.reply n prompt))
  else
    modify fun c => { c with reading := c.reading ++ [⟨id, prompt⟩] }

/-- The prompt of a turn's model step, built as the turn's person, and the model asked. -/
def modelStep (turn : Turn) : Program H Unit := do
  let active := (← get).activeSet
  if !active.dropped.isEmpty then
    trace (s!"tool budget {active.tokenEstimate}/{active.budget}: dropped " ++
      ", ".intercalate active.dropped)
  let blocks ← contextBlocks
  let c ← get
  let messages := c.messagesOf turn.caller.user turn.workspace turn.conversation
  let continuing := turn.continuing && turn.steps = 0
  let carried := if continuing then carriedOn messages else (none, messages)
  if continuing && carried.1.isNone then
    writeChat turn.caller.user turn.workspace turn.conversation withoutEmptyStop
    modify fun c => c.changeTurn turn.id fun t => { t with continuing := false }
  readTheModel turn.id
    { active := active
      tools := if carried.1.isSome then [] else active.tools
      blocks := blocks
      task := c.mine.task
      messages := carried.2
      begun := carried.1
      refused := turn.refused }

/-- A model step, unless the turn is to end instead. -/
def askWith (sched : Program H Unit) (id : Nat) : Program H Unit := do
  let c ← get
  match c.turnOf id with
  | none => return
  | some turn =>
    if turn.stop then endWith sched id .stopped
    else if c.mine.workspace ≠ turn.workspace then
      notice .info "The answer stopped when you moved to another workspace."
      endWith sched id .stopped
    else if maxAgentSteps ≤ turn.steps then
      notice .warn s!"stopped after {maxAgentSteps} tool calls in one turn"
      endWith sched id .done
    else modelStep turn

/-- The question a run answers: the person's newest message. -/
def goalOf (messages : List ChatMessage) : String :=
  ((messages.reverse.find? fun m => m.role = .user).map ChatMessage.content).getD ""

/-- The turn's run and its ledger are made. -/
def startRun (turn : Turn) : Program H Unit := do
  activate turn.caller
  let c ← get
  let goal := goalOf (c.messagesOf turn.caller.user turn.workspace turn.conversation)
  let run := s!"run_{← nowMs}"
  modify fun c => c.own fun u => { u with
    run := some run
    task := { id := run, goal := goal, artifacts := u.task.artifacts } }
  emitTask

/-- A turn has left the queue. -/
def Core.leaveQueue (c : Core H) (id : Nat) : Core H :=
  { c.changeTurn id (fun t => { t with begun := true }) with begins := c.begins ++ [id] }

/-- The turn leaves the queue: its run and its ledger are made, and the model is asked. -/
def beginWith (sched : Program H Unit) (id : Nat) : Program H Unit := do
  match (← get).turnOf id with
  | none => return
  | some turn =>
    modify fun c => c.leaveQueue turn.id
    startRun turn
    askWith sched id

/-- Whoever waits and may start now, starts; the others are told where they stand when that
changes. At most so many moves. -/
def scheduleFor : Nat → Program H Unit
  | 0 => return
  | n + 1 => do
    match (← get).nextMove with
    | none => return
    | some (turn, state) =>
      activate turn.caller
      setState turn.id state
      if state = .writing then beginWith (scheduleFor n) turn.id
      scheduleFor n

def schedule : Program H Unit := do
  scheduleFor (2 * (← get).turns.length)

def endTurn (id : Nat) (how : TurnState) : Program H Unit :=
  endWith schedule id how

def askTheModel (id : Nat) : Program H Unit :=
  askWith schedule id

def beginTurn (id : Nat) : Program H Unit :=
  beginWith schedule id

/-- A new turn of the caller's, where the chat on screen or another is. -/
def Core.newTurn (c : Core H) (conversation : ConversationId) (continuing : Bool) : Turn where
  id := c.nextTurn
  caller := c.active
  workspace := c.mine.workspace
  conversation := conversation
  state := .waitsForAnotherChat
  begun := false
  steps := 0
  stop := false
  calls := []
  continuing := continuing
  refused := none

/-- A turn has come into the queue. -/
@[grind =]
def Core.queued (c : Core H) (turn : Turn) : Core H :=
  { c with nextTurn := c.nextTurn + 1, turns := c.turns ++ [turn] }

/-- A new answer for a chat, as the caller: begun now, or waiting. -/
def queue (conversation : ConversationId) (continuing : Bool) : Program H Unit := do
  let c ← get
  let turn := c.newTurn conversation continuing
  let state := c.whereItGoes c.turns turn
  modify fun c => c.queued { turn with state := state }
  emit (.turnChanged conversation state)
  if state = .writing then beginTurn turn.id

/-! ### A turn's work, come back -/

/-- Whether a tool the model named is on offer now. -/
def Core.onOffer (c : Core H) (tool : String) : Bool :=
  c.activeSet.tools.any fun t => t.name = tool ∨ t.name.replace "." "__" = tool

/-- What follows a prefix of a text. -/
def afterPrefix (start text : String) : Option String :=
  if text.startsWith start then some (text.drop start.length).toString else none

/-- Words the person has not seen yet. -/
def sayRest (conversation : ConversationId) (rest : String) : Program H Unit := do
  if rest ≠ "" then emit (.assistantDelta conversation rest)

/-- Why an answer ran out of room. -/
def outOfRoom (alone : Bool) : CutShort :=
  if alone then .tooLong else .chatFull

/-- How a reply that ended at the request's length limit was cut short: the chat left it no
more room, or its own limit did. -/
def cutAt (step : StepEnd) (reply : ChatReply) : Option CutShort :=
  if reply.atLimit then
    if 0 < reply.completionTokens ∧ reply.completionTokens < step.maxTokens then
      some (outOfRoom step.alone)
    else some .length
  else none

/-- The model wrote a call into its answer, not to be carried out: it is told so once and
tries once more; the second time the answer ends. -/
def attempted (turn : Turn) (step : StepEnd) (block : CallBlock)
    (offered : Bool) : Program H Unit := do
  match turn.refused with
  | none =>
    let told :=
      if offered then
        "to use a tool, reply with only the call; otherwise answer in words"
      else "no such tool; answer in words"
    modify fun c => c.changeTurn turn.id fun t => { t with
      refused := some ⟨s!"refused_{turn.steps}", block.tool, block.params, told⟩ }
    askTheModel turn.id
  | some _ =>
    let answer := if offered then block.wordsAround else "I couldn't do that."
    sayRest turn.conversation ((afterPrefix step.shown answer).getD answer)
    keep turn.id ⟨answer, step.thought, false, none⟩
    endTurn turn.id .done

/-- The turn's calls, and its next step posted. -/
def takeCalls (id : Nat) (calls : List ProposedCall) : Program H Unit := do
  modify fun c => (c.changeTurn id fun t => { t with calls := calls }).did
    (.proposed id calls.length)
  post (.goOn id)

/-- A reply without a call of the engine's. -/
@[grind =]
def answered (turn : Turn) (step : StepEnd) (reply : ChatReply) : Program H Unit := do
  match H.callBlock reply.text with
  | some block =>
    let offered := (← get).onOffer block.tool
    if offered && block.alone then
      takeCalls turn.id [⟨"call_0", block.tool.replace "__" ".", block.params⟩]
    else attempted turn step block offered
  | none =>
    match afterPrefix step.shown reply.text with
    | some rest => sayRest turn.conversation rest
    | none => pure ()
    keep turn.id ⟨reply.text, step.thought, reply.atLimit, cutAt step reply⟩
    endTurn turn.id .done

/-- A model step that ended without a reply. -/
def unanswered (id : Nat) (step : StepEnd) : ReplyFailure → Program H Unit
  | .stopped => do
    keep id ⟨step.shown, step.thought, true, none⟩
    endTurn id .stopped
  | .cut => do
    keep id ⟨step.shown, step.thought, true, none⟩
    endTurn id .cut
  | .noRoom => do
    keep id ⟨"", "", true, some (outOfRoom step.alone)⟩
    endTurn id .done
  | .other => do
    keep id ⟨"", "", true, some .failed⟩
    endTurn id .done

/-- A model step ended. -/
def replied (id : Nat) (step : StepEnd) : Program H Unit := do
  match (← get).turnOf id with
  | none => return
  | some turn =>
    activate turn.caller
    match step.repeated with
    | some kept =>
      keep id ⟨kept, step.thought, false, some .repeated⟩
      endTurn id .done
    | none =>
      match step.reply with
      | .error e => unanswered id step e
      | .ok reply =>
        if reply.calls.isEmpty then answered turn step reply
        else takeCalls id reply.calls

/-- A tool call of a turn's starts: it is off the turn's list, its person is told, and the turn
is the one at work. -/
def startCall (turn : Turn) (call : ProposedCall) (rest : List ProposedCall) :
    Program H Unit := do
  modify fun c => (c.changeTurn turn.id fun t => { t with calls := rest }).did (.called turn.id)
  emit (.toolCallStarted turn.conversation call.id call.tool call.params)
  modify fun c => { c with turnAtWork := some turn.id }

/-- The turn's next tool call, made. -/
def makeCall (turn : Turn) (call : ProposedCall) (rest : List ProposedCall) :
    Program H Unit := do
  startCall turn call rest
  let outcome ← callTool call.tool call.params .agent
  modify fun c => { c with turnAtWork := none }
  taskProgress call.tool outcome
  emit (.toolCallFinished turn.conversation call.id call.tool outcome)
  recordCall turn.id call.tool call.params outcome
  if outcome.awaiting then setState turn.id .awaitsApproval
  else post (.goOn turn.id)

/-- The turn's next tool call, one at a time; or, with none left, its next model step. -/
def goOn (id : Nat) : Program H Unit := do
  match (← get).turnOf id with
  | none => return
  | some turn =>
    activate turn.caller
    if turn.stop then endTurn id .stopped
    else if (← get).mine.workspace ≠ turn.workspace then
      notice .info "The answer stopped when you moved to another workspace."
      endTurn id .stopped
    else
      match turn.calls with
      | [] =>
        modify fun c => c.changeTurn id fun t => { t with steps := t.steps + 1 }
        askTheModel id
      | call :: rest => makeCall turn call rest

def handleInternal : Internal → Program H Unit
  | .replied id step => replied id step
  | .goOn id => goOn id

/-- What is left to do inside the request, done now: so many messages at most. -/
def drainFor : Nat → Program H Unit
  | 0 => return
  | n + 1 => do
    match (← get).inline with
    | [] => return
    | message :: rest =>
      modify fun c => { c with inline := rest }
      handleInternal message
      drainFor n

def drain : Program H Unit :=
  drainFor H.patience

/-- A turn's work, come back through Core's queue. -/
def internal (message : Internal) : Program H Unit := do
  handleInternal message
  drain

end LocalSpace
