import LocalSpace.Agent

/-!
# What people ask of answers

The entries of `agent.rs` a request comes through: a message sent, an answer carried on or
stopped, an approval given or declined, a chat deleted, a workspace left.
-/

namespace LocalSpace

variable {H : Host}

/-- What an entry of the agent's answers its request with. -/
inductive AgentReply where
  | transcript
  | refused (message : String)
  | attachmentRefused (refusal : String)
  | done

/-- The chat a request is about: the one it names, which must be one of the caller's in the
workspace they are in, or the one on screen. -/
def Core.chatOfTheCaller (c : Core H) (named : Option ConversationId) :
    Except String ConversationId :=
  let id := named.getD c.mine.conversations.current
  if (c.mine.conversations.find id).isSome then .ok id else .error s!"no conversation `{id}`"

/-- What a message's attachments become, once taken into the chat's keeping. -/
def takeAttachments (conversation : ConversationId) (attachments : List String) :
    Program H (Except String (List String)) := do
  if attachments.isEmpty then return .ok []
  else
    let n ← nextRead
    return H.attach n (← get).active.user conversation attachments

/-- A person's message in one of their chats: kept, and answered now, or when the answer
before it is done. -/
def send (conversation : Option ConversationId) (text : String) (attachments : List String) :
    Program H AgentReply := do
  let c ← get
  match c.chatOfTheCaller conversation with
  | .error refused => return .refused refused
  | .ok conversation =>
    if (c.turnIn conversation).isSome then
      return .refused
        "An answer is still being written in this chat. Stop it, or wait for it to finish."
    else
      match ← takeAttachments conversation attachments with
      | .error refusal => return .attachmentRefused refusal
      | .ok attached =>
        writeChat c.active.user c.mine.workspace conversation fun messages =>
          messages ++ [{ plainMessage .user text with attachments := attached }]
        queue conversation false
        drain
        return .transcript

/-- Carry on the answer that stopped in a chat, as part of that answer. -/
def continueAnswer (conversation : Option ConversationId) : Program H AgentReply := do
  let c ← get
  match c.chatOfTheCaller conversation with
  | .error refused => return .refused refused
  | .ok conversation =>
    if (c.turnIn conversation).isSome then
      return .refused "An answer is still being written in this chat."
    else
      let messages := c.messagesOf c.active.user c.mine.workspace conversation
      if messages.getLast?.any fun m => m.role = .assistant ∧ m.stopped then
        queue conversation true
        drain
        return .transcript
      else return .refused "There is no stopped answer to carry on in this chat."

/-- Stop the answer being written, or waiting, in one of the caller's chats. Being written,
it ends at its own safe point. -/
def cancel (conversation : Option ConversationId) : Program H AgentReply := do
  let c ← get
  match c.turnIn (conversation.getD c.mine.conversations.current) with
  | none => return .done
  | some id =>
    match ← stopTurn id with
    | none => return .done
    | some state =>
      if state ≠ .writing then endTurn id .stopped
      drain
      return .done

/-- A chat that is being deleted: its answer ends now. -/
@[grind =]
def forget (conversation : ConversationId) : Program H Unit := do
  match (← get).turnIn conversation with
  | none => return
  | some id =>
    let _ ← stopTurn id
    endTurn id .stopped
    drain

/-- The turn an approval was asked for, if it is still there. -/
def Core.waitingTurn (c : Core H) (turn : Option Nat) : Option Turn :=
  turn.bind c.turnOf

/-- The person allowed the call the turn waited on: it was made, and the turn goes on. -/
def resume (turn : Option Nat) (tool : String) (params : Json) (outcome : ToolOutcome) :
    Program H Unit := do
  match (← get).waitingTurn turn with
  | none => return
  | some t =>
    recordCall t.id tool params outcome
    setState t.id .writing
    post (.goOn t.id)
    drain

/-- The first call of a message that waits for an answer, declined. -/
def declineCall (tool : String) : List ToolCallRecord → Option (List ToolCallRecord)
  | [] => none
  | call :: rest =>
    match call.outcome with
    | .awaitingConfirm prompt =>
      if call.tool = tool then some ({ call with outcome := .declined prompt } :: rest)
      else (declineCall tool rest).map (call :: ·)
    | _ => (declineCall tool rest).map (call :: ·)

/-- The chat, newest message first, with the call that waits declined. -/
def declineIn (tool : String) : List ChatMessage → List ChatMessage
  | [] => []
  | m :: rest =>
    match declineCall tool m.toolCalls with
    | some calls => { m with toolCalls := calls } :: rest
    | none => m :: declineIn tool rest

/-- The person declined the call the turn waited on: it is not made, and the answer stops
there. -/
def declined (turn : Option Nat) (tool : String) : Program H Unit := do
  match (← get).waitingTurn turn with
  | none => return
  | some t =>
    writeChat t.caller.user t.workspace t.conversation fun messages =>
      (declineIn tool messages.reverse).reverse
    endTurn t.id .stopped
    drain

/-- The caller's turns in a workspace. -/
def Core.leaving (c : Core H) (workspace : WorkspaceId) : List Nat :=
  (c.turns.filter fun t => t.caller.user = c.active.user ∧ t.workspace = workspace).map Turn.id

/-- Ask every one of some turns to stop: where each was. -/
def stopAll : List Nat → Program H (List (Nat × Option TurnState))
  | [] => return []
  | id :: rest => do
    let state ← stopTurn id
    return (id, state) :: (← stopAll rest)

/-- The person moves to another workspace: their answers there stop now, at their safe
points. Every one is asked first, so that none that waits is begun meanwhile. -/
def stopOnLeaving (workspace : WorkspaceId) : Program H Unit := do
  let leaving := (← get).leaving workspace
  if !leaving.isEmpty then
    (← stopAll leaving).forM fun s =>
      if s.2.any fun state => state ≠ .writing then endTurn s.1 .stopped else pure ()
    notice .info "The answer stopped when you moved to another workspace."
    drain

/-- A message in the chat on screen, answered to its end before this returns, whatever runs
Core: evals read the document right after it. -/
def evalTurn (text : String) : Program H Unit := do
  let before := (← get).runInline
  modify fun c => { c with runInline := true }
  let _ ← send none text []
  modify fun c => { c with runInline := before }

end LocalSpace
