import LocalSpace.Handle
import LocalSpace.Library.Programs

/-!
# The acts Core's operations are made of

Every operation of Core changes its state by acts of a few kinds, `Part`, one after another:
it notes something (an event, an audit record, a reading of the clock), moves the person's
focus, writes their chat or their ledger, lets a turn into the queue, pauses it or ends it,
brings a document in, rewrites one, and so on. `Act p s t` says exactly what an act of the
kind `p` may do to the state `s`, guards included.

The modules that follow show of each operation, once, by which kinds of acts it goes
(`Library.Does Act ps`). A property of runs is then a matter of what each kind of act keeps.
-/

namespace LocalSpace

open Library

variable {H : Host}

def Event.isPatch : Event → Bool
  | .docPatch .. => true
  | _ => false

/-! ### Changes to documents -/

/-- A file: known as a blob, and holding one. -/
def DocStore.IsFile (s : DocStore H) (d : DocId) : Prop :=
  (∃ bytes, s.docs.lookup d = some (.blob bytes)) ∧ s.kinds.lookup d = some .blob

/-- Documents as they were, but for those of `ds`; what was loaded still is, and a file is
still one. -/
structure DocStore.Touches (ds : List DocId) (s t : DocStore H) : Prop where
  content : ∀ d, d ∉ ds → t.docs.lookup d = s.docs.lookup d
  kind : ∀ d, d ∉ ds → t.kinds.lookup d = s.kinds.lookup d
  loaded : ∀ d, s.exists? d = true → t.exists? d = true
  file : ∀ d, s.IsFile d → t.IsFile d

/-- Heads as they were, but for those of `ds`. -/
def Dag.Touches (ds : List DocId) (s t : Dag) : Prop :=
  ∀ d, d ∉ ds → t.head d = s.head d

/-! ### What was done for a turn -/

@[grind =]
def Deed.turn : Deed → Nat
  | asked id => id
  | proposed id _ => id
  | called id => id

/-- How often the model was asked for a turn. -/
def asksOf (deeds : List Deed) (id : Nat) : Nat :=
  deeds.count (.asked id)

/-- How many tool calls of a turn's were made. -/
@[grind =]
def callsOf (deeds : List Deed) (id : Nat) : Nat :=
  deeds.count (.called id)

/-- How many calls of a turn's a deed took. -/
@[grind =]
def Deed.takes (id : Nat) : Deed → Nat
  | proposed turn n => if turn = id then n else 0
  | _ => 0

/-- How many tool calls the replies to a turn proposed. -/
@[grind =]
def proposedOf (deeds : List Deed) (id : Nat) : Nat :=
  (deeds.map (Deed.takes id)).sum

/-- How often the model was to be asked so far again: once a step, and once more after a refused
call. -/
def Turn.allowed (t : Turn) : Nat :=
  t.steps + if t.refused.isSome then 1 else 0

/-! ### Changes to users and turns -/

/-- A turn moved on without a change of who it is of, where it stands or whether it has
begun: no further back, and with no more calls to make. -/
structure SameTurn (x y : Turn) : Prop where
  id : y.id = x.id
  caller : y.caller = x.caller
  workspace : y.workspace = x.workspace
  conversation : y.conversation = x.conversation
  state : y.state = x.state
  begun : y.begun = x.begun
  allowed : x.allowed ≤ y.allowed
  calls : y.calls.length ≤ x.calls.length

namespace Core

/-- The model may be asked once more for a turn, and the turn is to make more steps. -/
def Room (c : Core H) (id : Nat) : Prop :=
  ∃ turn, c.turnOf id = some turn ∧ asksOf c.deeds id ≤ turn.allowed ∧
    turn.steps < maxAgentSteps

/-- A user Core knows, made the active one with the state kept for them. -/
def seated (c : Core H) (caller : Caller) (st : UserState) : Core H :=
  { c with
    users := if c.active.user = caller.user then c.users
      else (c.users.erase caller.user).insert c.active.user c.mine
    mine := st
    active := caller }

/-- What happened beside the state the properties look at. -/
@[grind =]
def noted (c : Core H) (audit : List AuditRecord) (gateway : H.Gateway)
    (providers : List ((HarnessId × String × Nat) × ContextBlock)) (reads : Nat)
    (events : List Emitted) : Core H :=
  { c with
    audit := audit
    gateway := gateway
    providers := providers
    reads := reads
    events := c.events ++ events }

end Core

/-! ### The kinds of acts -/

inductive Part where
  -- noticing
  | note
  -- what is the active user's own
  | desk | chat | ask | lift | hold | ledger | glass | place | unpack
  -- whose turn it is
  | seat | enter
  -- the queue
  | push | start | tweak | propose | call | pause | resume | drop | wait | begin | finish
  -- a turn's work on its way
  | mail | asked | read | take | inlining | evals | atWork
  -- documents
  | record | bring | write | rewrite | lock | patch | replica | unreplica
  | exported (doc : DocId)
  | load
  -- administration
  | tighten (doc : DocId)
  | member | persist | found | enrol | disable | roles | package | profile
  deriving DecidableEq

/-- What an act of a kind does. -/
def Act : Part → Core H → Core H → Prop
  | .note, s, t => ∃ audit gateway providers reads events, s.reads ≤ reads ∧
      (∀ e ∈ events, e.event.isPatch = false) ∧
      t = s.noted audit gateway providers reads events
  | .desk, s, t => ∃ focus pinned touched,
      t = s.own fun u => { u with focus := focus, pinned := pinned, touched := touched }
  | .chat, s, t => ∃ transcript chats rows current,
      t = { s.own (fun u => { u with transcript := transcript, conversations := chats }) with
        store := { s.store with conversations := rows, currentConversations := current } }
  | .ask, s, t => ∃ id tool params,
      t = s.own fun u => { u with
        nextApproval := u.nextApproval + 1
        pending := u.pending.insert id ⟨tool, params, true, s.turnAtWork⟩ }
  | .lift, s, t => ∃ id, t = s.own fun u => { u with pending := u.pending.erase id }
  | .hold, s, t => ∃ installs, t = s.own fun u => { u with pendingInstalls := installs }
  | .ledger, s, t => ∃ run task proposals rows,
      t = { s.own (fun u => { u with run := run, task := task, proposals := proposals }) with
        store := { s.store with ledgers := rows } }
  | .glass, s, t => ∃ glass : Option BreakGlass,
      (glass.isSome = true → s.active.isAdmin = true) ∧
      t = s.own fun u => { u with breakGlass := glass }
  | .place, s, t => ∃ workspace ws, s.access.workspace workspace = some ws ∧
      t = s.own fun u => { u with workspace := ws.id }
  | .unpack, s, t => ∃ transcript chats task rows current places,
      t = { s.own (fun u => { u with
          transcript := transcript, conversations := chats, task := task }) with
        store := { s.store with
          conversations := rows, currentConversations := current, currentWorkspaces := places } }
  | .seat, s, t => ∃ turn ∈ s.turns, ∃ st, s.stateOf turn.caller.user = some st ∧
      t = s.seated turn.caller st
  | .enter, s, t => ∃ caller, t = ((activate caller).run s).2
  | .push, s, t => ∃ conversation continuing state,
      state = s.whereItGoes s.turns (s.newTurn conversation continuing) ∧ state ≠ .writing ∧
      t = s.queued { s.newTurn conversation continuing with state := state }
  | .start, s, t => ∃ conversation continuing events,
      s.whereItGoes s.turns (s.newTurn conversation continuing) = .writing ∧
      (∀ e ∈ events, e.event.isPatch = false) ∧
      t = { s.queued { s.newTurn conversation continuing with
          state := .writing, begun := true } with
        begins := s.begins ++ [s.nextTurn]
        events := s.events ++ events }
  | .tweak, s, t => ∃ id change, (∀ x, SameTurn x (change x)) ∧ t = s.changeTurn id change
  | .propose, s, t => ∃ id ∈ s.begins, ∃ calls,
      t = (s.changeTurn id fun x => { x with calls := calls }).did (.proposed id calls.length)
  | .call, s, t => ∃ id ∈ s.begins, ∃ turn call rest, s.turnOf id = some turn ∧
      turn.calls = call :: rest ∧
      t = (s.changeTurn id fun x => { x with calls := rest }).did (.called id)
  | .pause, s, t => ∃ id ∈ s.begins,
      t = s.changeTurn id fun x => { x with state := .awaitsApproval }
  | .resume, s, t => ∃ id ∈ s.begins, t = s.changeTurn id fun x => { x with state := .writing }
  | .drop, s, t => ∃ turn ∈ s.turns, ∃ st, s.stateOf turn.caller.user = some st ∧
      t = ({ s with turns := s.turns.filter fun x => x.id ≠ turn.id } : Core H).seated
        turn.caller st
  | .wait, s, t => ∃ turn state, s.nextMove = some (turn, state) ∧ state ≠ .writing ∧
      t = s.changeTurn turn.id fun x => { x with state := state }
  | .begin, s, t => ∃ turn events, s.nextMove = some (turn, .writing) ∧
      (∀ e ∈ events, e.event.isPatch = false) ∧
      t = { s.changeTurn turn.id fun x => { x with state := .writing, begun := true } with
        begins := s.begins ++ [turn.id]
        events := s.events ++ events }
  | .finish, s, t => ∃ id how, t = ((endTurn id how).run s).2
  | .mail, s, t => ∃ message : Internal, message.turn ∈ s.begins ∧
      t = ((post message).run s).2
  | .asked, s, t => ∃ id ∈ s.begins, s.Room id ∧ t = s.did (.asked id)
  | .read, s, t => ∃ id ∈ s.begins, ∃ prompt,
      t = { s with reading := s.reading ++ [⟨id, prompt⟩] }
  | .take, s, t => ∃ message rest, s.inline = message :: rest ∧ t = { s with inline := rest }
  | .inlining, s, t => ∃ inlining, t = { s with runInline := inlining }
  | .evals, s, t => ∃ running, t = { s with evalsRunning := running }
  | .atWork, s, t => ∃ turn : Option Nat, (∀ id ∈ turn, id ∈ s.begins) ∧
      t = { s with turnAtWork := turn }
  | .record, s, t => ∃ harness title kind now, s.existingDocumentOf harness = none ∧
      t = { s with
        store := s.store.putDocument s!"doc_{H.uuid s.reads}"
          (s.harnessRecord harness title kind now)
        reads := s.reads + 2 }
  | .bring, s, t => ∃ d r title docs reads events, s.store.getDocument d = some r ∧
      r.workspace = s.mine.workspace ∧ r.harness.isSome = true ∧
      s.docs.exists? d = false ∧ docs.exists? d = true ∧ s.docs.Touches [d] docs ∧
      s.reads ≤ reads ∧ (∀ e ∈ events, e.event.isPatch = false) ∧
      t = { s with
        docs := docs
        access := s.access.addDocument d s.mine.workspace title none
        reads := reads
        events := s.events ++ events }
  | .write, s, t => ∃ ds docs dag, (∀ d ∈ ds, s.may d .edit = true) ∧
      s.active.isViewer = false ∧ s.docs.Touches ds docs ∧ s.dag.Touches ds dag ∧
      t = { s with docs := docs, dag := dag }
  | .rewrite, s, t => ∃ ds docs dag, s.docs.Touches ds docs ∧ s.dag.Touches ds dag ∧
      (∀ d, docs.exists? d = s.docs.exists? d) ∧ t = { s with docs := docs, dag := dag }
  | .lock, s, t => ∃ docs dag, s.docs.Touches [lockDoc] docs ∧ s.dag.Touches [lockDoc] dag ∧
      t = { s with docs := docs, dag := dag }
  | .patch, s, t => ∃ doc peer, t = ((syncReplica doc peer).run s).2
  | .replica, s, t => ∃ doc peer state, s.may doc .edit = true ∧
      t = ((putReplica doc peer state).run s).2
  | .unreplica, s, t => ∃ doc peer, t = s.setReplicas doc ((s.replicasOf doc).erase peer) ∨
      t = { s with syncStates := s.syncStates.erase doc }
  | .exported doc, s, t => ∃ hash name r dag reads, doc = Export.blobId hash ∧
      r.harness = none ∧ r.kind = .blob ∧ r.workspace = s.mine.workspace ∧ r.acl = none ∧
      s.dag.Touches [doc] dag ∧ s.reads ≤ reads ∧
      t = { s with
        docs := s.docs.ensure doc .blob
        access := s.access.addDocument doc s.mine.workspace name none
        dag := dag
        store := s.store.putDocument doc r
        reads := reads }
  | .load, s, t => ∃ d r, s.store.getDocument d = some r ∧ t = ((loadDocument d r).run s).2
  | .tighten doc, s, t => ∃ acl access, s.access.setDocumentAcl doc acl = .ok access ∧
      t = { s with
        access := access
        store := match s.store.getDocument doc with
          | some record => s.store.putDocument doc { record with acl := acl }
          | none => s.store }
  | .member, s, t => ∃ workspace change, (∀ ws : Workspace, (change ws).id = ws.id) ∧
      t = { s with access := s.access.workspaceMut workspace change }
  | .persist, s, t => ∃ id ws, s.access.workspace id = some ws ∧
      t = { s with store := s.store.putWorkspace ws }
  | .found, s, t => ∃ name now,
      t = { s with
        store := s.store.putWorkspace
          (.sharedBy s!"ws_{H.uuid s.reads}" name s.active.user now)
        access := s.access.addWorkspace (.sharedBy s!"ws_{H.uuid s.reads}" name s.active.user now)
        reads := s.reads + 2 }
  | .enrol, s, t => ∃ user : UserRecord, user.id = s!"u_{H.uuid s.reads}" ∧
      t = { s with
        store := { s.store with users := s.store.users.insert user.id user }
        reads := s.reads + 1 }
  | .disable, s, t => ∃ user record disabled, s.store.users.lookup user = some record ∧
      t = { s with store := { s.store with
        users := s.store.users.insert user { record with disabled := disabled } } }
  | .roles, s, t => ∃ user record roles, s.store.users.lookup user = some record ∧
      t = { s with store := { s.store with
        users := s.store.users.insert user { record with roles := roles } } }
  | .package, s, t => ∃ registry, t = { s with registry := registry }
  | .profile, s, t => ∃ profile, t = { s with cfg := { s.cfg with profile := profile } }

/-! ### Noticing -/

section Notes

variable {ps : List Part}

theorem emitTo_does {who : To} {ev : Event} (hev : ev.isPatch = false)
    (hps : Part.note ∈ ps) : Within (Does Act ps) (emitTo (H := H) who ev) := by
  refine Within.change_by Part.note hps (fun s =>
    ⟨s.audit, s.gateway, s.providers, s.reads, _, Nat.le_refl _, ?_,
    rfl⟩)
  intro e he
  rw [List.mem_singleton.1 he]
  exact hev

theorem emit_does {ev : Event} (hev : ev.isPatch = false)
    (hps : Part.note ∈ ps) : Within (Does Act ps) (emit (H := H) ev) :=
  Within.get.bind fun _ => emitTo_does hev hps

theorem emitAll_does {ev : Event} (hev : ev.isPatch = false)
    (hps : Part.note ∈ ps) : Within (Does Act ps) (emitAll (H := H) ev) :=
  emitTo_does hev hps

theorem trace_does (text : String) (hps : Part.note ∈ ps) :
    Within (Does Act ps) (trace (H := H) text) :=
  emit_does rfl hps

theorem notice_does (level : NoticeLevel) (text : String) (hps : Part.note ∈ ps) :
    Within (Does Act ps) (notice (H := H) level text) :=
  emit_does rfl hps

/-- A change to the audit, the gateway or the providers' cache. -/
theorem quiet_does {f : Core H → Core H}
    (hf : ∀ s, ∃ audit gateway providers, f s = s.noted audit gateway providers s.reads [])
    (hps : Part.note ∈ ps) :
    Within (Does Act ps) (modify f : Program H Unit) := by
  refine Within.change_by Part.note hps (fun s => ?_)
  obtain ⟨audit, gateway, providers, h⟩ := hf s
  exact ⟨audit, gateway, providers, s.reads, [], Nat.le_refl _, by simp, h⟩

/-- A change to what the providers are known to have said. -/
theorem providers_does (f : Core H → List ((HarnessId × String × Nat) × ContextBlock))
    (hps : Part.note ∈ ps) :
    Within (Does Act ps) (modify fun c => { c with providers := f c } : Program H Unit) :=
  quiet_does (fun s => ⟨s.audit, s.gateway, f s, by simp [Core.noted]⟩) hps

theorem nextRead_does (hps : Part.note ∈ ps) :
    Within (Does Act ps) (nextRead (H := H)) := by
  intro s
  have hrun : (nextRead.run s).2 = s.noted s.audit s.gateway s.providers (s.reads + 1) [] := by
    simp only [Core.noted, List.append_nil]
    rfl
  exact Does.single (p := .note) ⟨_, _, _, _, _, Nat.le_succ _, by simp, hrun⟩ hps

theorem nowMs_does (hps : Part.note ∈ ps) : Within (Does Act ps) (nowMs (H := H)) :=
  (nextRead_does hps).bind fun _ => Within.pure _

theorem auditAppend_does (scope : Scope) (event : String) (detail : Json) (outcome : String)
    (hps : Part.note ∈ ps) :
    Within (Does Act ps) (auditAppend (H := H) scope event detail outcome) :=
  quiet_does (fun s => ⟨s.audit ++ [⟨s.actor, scope, event, detail, outcome⟩], s.gateway,
    s.providers, by simp [Core.noted]⟩) hps

theorem auditOn_does (doc : DocId) (event : String) (detail : Json) (outcome : String)
    (hps : Part.note ∈ ps) :
    Within (Does Act ps) (auditOn (H := H) doc event detail outcome) :=
  Within.get.bind fun _ => auditAppend_does _ _ _ _ hps

theorem broadcastEnvironment_does (hps : Part.note ∈ ps) :
    Within (Does Act ps) (broadcastEnvironment (H := H)) :=
  Within.get.bind fun _ => (emit_does rfl hps).bind fun _ => emitAll_does rfl hps

theorem emitEnvironment_does (hps : Part.note ∈ ps) :
    Within (Does Act ps) (emitEnvironment (H := H)) :=
  Within.get.bind fun _ => emit_does rfl hps

end Notes

end LocalSpace
