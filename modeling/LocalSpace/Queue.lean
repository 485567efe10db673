import LocalSpace.Library.SlotLine
import LocalSpace.ToolActs

/-!
# The queue of answers

What holds of the queue in every state Core goes through, within an operation as well as
after it: `Sound`. Turns stand in the order of their ids; a turn waits until it has begun,
and has begun when its id is among `begins`; only a person's oldest turn is anything but
behind; and whatever names a turn that is not waiting (a model step being read, a step on its
way, an approval asked for) names one that has begun.

The queue is a line of jobs before the engine's slots (`SlotLine`), a person's own answers
one behind the other.
-/

namespace LocalSpace

open Library

variable {H : Host}

/-! ### Turns as jobs -/

/-- Where a turn in a state stands. -/
@[grind =]
def TurnState.place : TurnState → SlotLine.Place
  | waitsForAnotherChat => .behind
  | waitsForTheModel => .line
  | writing => .served
  | _ => .held

namespace Turn

/-- Whose turn it is. -/
def owner (t : Turn) : UserId :=
  t.caller.user

@[grind =]
def place (t : Turn) : SlotLine.Place :=
  t.state.place

theorem place_eq_served_iff {t : Turn} : t.place = .served ↔ t.state = .writing := by
  unfold place
  cases t.state <;> simp [TurnState.place]

theorem place_eq_behind_iff {t : Turn} : t.place = .behind ↔ t.state = .waitsForAnotherChat := by
  unfold place
  cases t.state <;> simp [TurnState.place]

theorem waits_place (t : Turn) : t.place.waits = t.waiting := by
  unfold place waiting
  cases t.state <;> rfl

end Turn

namespace Core

variable {c : Core H} {before after mid rest : List Turn} {t : Turn} {state : TurnState}

/-- The slots the engine has. -/
def cap (c : Core H) : Nat :=
  max c.cfg.slots 1

theorem written_eq_served (c : Core H) : c.written = SlotLine.served Turn.place c.turns := by
  unfold written SlotLine.served
  exact List.countP_congr fun t _ => by
    simp [Turn.place_eq_served_iff]

theorem place_whereItGoes (c : Core H) (before : List Turn) (t : Turn) :
    (c.whereItGoes before t).place =
      SlotLine.goes Turn.owner Turn.place c.cap c.turns before t := by
  unfold whereItGoes SlotLine.goes
  rw [written_eq_served, apply_ite TurnState.place, apply_ite TurnState.place]
  rfl

/-- A turn goes behind, into the line or to a slot. -/
theorem whereItGoes_cases (c : Core H) (before : List Turn) (t : Turn) :
    c.whereItGoes before t = .waitsForAnotherChat ∨ c.whereItGoes before t = .waitsForTheModel ∨
      c.whereItGoes before t = .writing := by
  unfold whereItGoes
  split
  · exact .inl rfl
  · split
    · exact .inr (.inl rfl)
    · exact .inr (.inr rfl)

theorem waiting_of_whereItGoes (h : c.whereItGoes before t ≠ .writing) {x : Turn}
    (hx : x.state = c.whereItGoes before t) : x.waiting = true := by
  unfold Turn.waiting
  rcases c.whereItGoes_cases before t with hw | hw | hw
  · simp [hx, hw]
  · simp [hx, hw]
  · exact absurd hw h

/-! ### The next move -/

/-- A waiting turn that does not stand where it goes, all before it standing where they
go. -/
theorem firstMove_eq_some (h : c.firstMove before rest = some (t, state)) :
    ∃ mid after, rest = mid ++ t :: after ∧ t.waiting = true ∧
      state = c.whereItGoes (before ++ mid) t ∧ state ≠ t.state ∧
      ∀ b k a, mid = b ++ k :: a → k.waiting = true →
        c.whereItGoes (before ++ b) k = k.state := by
  induction rest generalizing before with
  | nil => cases h
  | cons x rest ih =>
    unfold firstMove at h
    split at h
    · next hx =>
      cases h
      exact ⟨[], rest, rfl, hx.1, by simp, hx.2, by simp⟩
    · next hx =>
      obtain ⟨mid, after, rfl, hw, hs, hne, hb⟩ := ih h
      refine ⟨x :: mid, after, rfl, hw, by simpa using hs, hne, ?_⟩
      intro b k a hmid hk
      cases b with
      | nil =>
        simp only [List.nil_append, List.cons.injEq] at hmid
        rw [List.append_nil, ← hmid.1]
        by_contra hgoes
        exact hx ⟨hmid.1 ▸ hk, hgoes⟩
      | cons y b =>
        simp only [List.cons_append, List.cons.injEq] at hmid
        have := hb b k a hmid.2 hk
        rwa [← hmid.1, show before ++ x :: b = before ++ [x] ++ b by simp]

theorem whereItGoes_congr {d : Core H} (hturns : d.turns = c.turns)
    (hslots : d.cfg.slots = c.cfg.slots) (before : List Turn) (t : Turn) :
    d.whereItGoes before t = c.whereItGoes before t := by
  unfold whereItGoes written
  rw [hturns, hslots]

/-- Who is moved next depends on the turns and the slots alone. -/
theorem nextMove_congr {d : Core H} (hturns : d.turns = c.turns)
    (hslots : d.cfg.slots = c.cfg.slots) : d.nextMove = c.nextMove := by
  have hfirst : ∀ rest before, d.firstMove before rest = c.firstMove before rest := by
    intro rest
    induction rest with
    | nil => exact fun _ => rfl
    | cons t rest ih =>
      intro before
      unfold firstMove
      rw [whereItGoes_congr hturns hslots, ih]
  unfold nextMove
  rw [hturns, hfirst]

/-! ### Whose turn it is -/

@[simp] theorem stateOf_active (c : Core H) : c.stateOf c.active.user = some c.mine :=
  if_pos rfl

theorem stateOf_seated {caller : Caller} {st : UserState} (h : c.stateOf caller.user = some st)
    (u : UserId) : (c.seated caller st).stateOf u = c.stateOf u := by
  unfold stateOf seated at *
  dsimp only
  by_cases hu : caller.user = u
  · subst hu
    rw [if_pos rfl, h]
  · rw [if_neg hu]
    split
    · next hsame => rw [if_neg (by rwa [hsame])]
    · next hne =>
      by_cases hactive : c.active.user = u
      · subst hactive
        rw [if_pos rfl, AList.lookup_insert]
      · rw [if_neg hactive, AList.lookup_insert_ne (Ne.symm hactive),
          AList.lookup_erase_ne (Ne.symm hu)]

/-- A core with a user's own workspace in it. -/
@[grind =]
def homed (c : Core H) (user : UserId) : Core H :=
  if (c.access.workspace (Workspace.personalId user)).isNone then
    { c with
      store := c.store.putWorkspace (.personal user)
      access := c.access.addWorkspace (.personal user) }
  else c

/-- Loading chats writes chats alone. -/
theorem load_store (db : Store) (user : UserId) (workspace : WorkspaceId) (now : Nat) :
    ∃ current, (Chats.load db user workspace now).2 =
      { db with currentConversations := current } := by
  have hstart : ∀ s : Chats, ∃ current, (s.start db now).2 =
      { db with currentConversations := current } := by
    intro s
    unfold Chats.start
    split
    · exact ⟨_, rfl⟩
    · exact ⟨_, rfl⟩
  unfold Chats.load
  dsimp only
  split <;> split
  · obtain ⟨current, h⟩ := hstart ⟨_, _, user, workspace⟩
    rw [h]
    exact ⟨_, rfl⟩
  · exact hstart _
  · exact ⟨_, rfl⟩
  · exact ⟨_, rfl⟩

theorem homed_eq (c : Core H) (user : UserId) : ∃ workspaces access,
    c.homed user = { c with
      store := { c.store with workspaces := workspaces }
      access := access } ∧ access.documents = c.access.documents := by
  unfold homed
  split
  · exact ⟨_, _, rfl, rfl⟩
  · exact ⟨_, _, rfl, rfl⟩

/-- Where a user seen for the first time starts: where they last were, if they may still be
there, or at home. -/
def firstWorkspace (c : Core H) (user : UserId) : WorkspaceId :=
  ((c.store.currentWorkspaces.lookup user).filter fun ws =>
    (c.access.levelIn ws ⟨user, [], none⟩).isSome).getD (Workspace.personalId user)

theorem freshUserState_run (user : UserId) (c : Core H) : ∃ st current,
    st.breakGlass = none ∧ st.pending = ∅ ∧
    st.workspace = (c.homed user).firstWorkspace user ∧
    (freshUserState user).run c = (st, { c.homed user with
      store := { (c.homed user).store with currentConversations := current }
      reads := c.reads + 1 }) := by
  obtain ⟨current, hload⟩ := load_store (c.homed user).store user
    ((c.homed user).firstWorkspace user) (H.clock c.reads)
  refine ⟨((freshUserState user).run c).1, current, ?_, ?_, ?_, Prod.ext rfl ?_⟩
  · unfold freshUserState
    rw [run_bind, run_get]
    dsimp only
    split <;> rfl
  · unfold freshUserState
    rw [run_bind, run_get]
    dsimp only
    split <;> rfl
  · unfold freshUserState homed
    rw [run_bind, run_get]
    dsimp only
    split <;> rfl
  · rw [← hload]
    unfold freshUserState homed
    rw [run_bind, run_get]
    dsimp only
    split <;> rfl

/-- Making a caller the active one: a user Core knows is seated; one it does not know is
given a state of their own, on no break-glass and with nothing pending. -/
theorem activate_run (caller : Caller) (c : Core H) :
    (∃ st, c.stateOf caller.user = some st ∧
      ((activate caller).run c).2 = c.seated caller st) ∨
    (c.stateOf caller.user = none ∧ ∃ st current,
      st.breakGlass = none ∧ st.pending = ∅ ∧
      st.workspace = (c.homed caller.user).firstWorkspace caller.user ∧
      ((activate caller).run c).2 = { c.homed caller.user with
        store := { (c.homed caller.user).store with currentConversations := current }
        users := (c.homed caller.user).users.insert c.active.user c.mine
        mine := st
        active := caller
        reads := c.reads + 1 }) := by
  unfold activate
  rw [run_bind, run_get]
  dsimp only
  split
  · next h =>
    refine .inl ⟨c.mine, if_pos h, ?_⟩
    unfold seated
    rw [if_pos h]
    rfl
  · next h =>
    rw [run_bind]
    unfold takeState
    rw [run_bind, run_get]
    dsimp only
    split
    · next st hst =>
      refine .inl ⟨st, by simp [stateOf, h, hst], ?_⟩
      unfold seated
      rw [if_neg h]
      rfl
    · next hnone =>
      refine .inr ⟨by simp [stateOf, h, hnone], ?_⟩
      obtain ⟨st, current, hglass, hpending, hws, hrun⟩ := freshUserState_run caller.user c
      rw [hrun]
      have hhomed : (c.homed caller.user).active = c.active ∧
          (c.homed caller.user).mine = c.mine := by
        unfold homed
        split <;> exact ⟨rfl, rfl⟩
      refine ⟨st, current, hglass, hpending, hws, ?_⟩
      rw [run_modify]
      dsimp only
      rw [hhomed.1, hhomed.2]

/-- A user Core did not know is the active one, everyone else as they were. -/
theorem stateOf_activate_new {caller : Caller} {c : Core H} (h : c.stateOf caller.user = none)
    (u : UserId) : ((activate caller).run c).2.stateOf u =
      if caller.user = u then some ((activate caller).run c).2.mine else c.stateOf u := by
  rcases activate_run caller c with ⟨st, hst, -⟩ | ⟨-, st, _, -, -, -, hrun⟩
  · rw [h] at hst
    cases hst
  · obtain ⟨workspaces, access, hhomed, -⟩ := c.homed_eq caller.user
    rw [hrun, hhomed]
    unfold stateOf
    dsimp only
    split
    · rfl
    · split
      · next hactive => rw [← hactive, AList.lookup_insert]
      · next hactive => exact AList.lookup_insert_ne (Ne.symm hactive)

end Core

/-! ### The acts that leave the queue alone -/

/-- The kinds of acts that leave the queue, what is on its way in it, and everyone's
approvals as they are. -/
def Part.still : Part → Bool
  | .ask | .lift | .seat | .enter | .push | .start | .tweak | .propose | .call => false
  | .pause | .resume | .drop | .wait | .begin | .finish => false
  | .mail | .asked | .read | .take | .inlining | .atWork => false
  | _ => true

/-- The queue, and what is on its way in it. -/
def Core.flow (c : Core H) :=
  (c.turns, c.nextTurn, c.begins, c.inline, c.posted, c.reading, c.turnAtWork, c.runInline,
    c.deeds)

theorem syncReplica_run (doc : DocId) (peer : String) (s : Core H) : ∃ replicas events,
    ((syncReplica doc peer).run s).2 =
      { s with syncStates := replicas, events := s.events ++ events } := by
  unfold syncReplica
  rw [run_bind, run_get]
  dsimp only
  split
  · exact ⟨s.syncStates, [], by simp; rfl⟩
  · rw [run_bind, run_modify]
    dsimp only
    split
    · exact ⟨_, [], by simp; rfl⟩
    · exact ⟨_, _, rfl⟩

theorem Act.still {p : Part} {s t : Core H} (hp : p.still = true) (h : Act p s t) :
    t.flow = s.flow ∧ t.cfg.slots = s.cfg.slots ∧ t.active = s.active ∧ t.users = s.users ∧
      t.mine.pending = s.mine.pending := by
  cases p <;> try (exact absurd hp (by decide))
  case note => obtain ⟨_, _, _, _, _, _, _, rfl⟩ := h; exact ⟨rfl, rfl, rfl, rfl, rfl⟩
  case desk => obtain ⟨_, _, _, rfl⟩ := h; exact ⟨rfl, rfl, rfl, rfl, rfl⟩
  case chat => obtain ⟨_, _, _, _, rfl⟩ := h; exact ⟨rfl, rfl, rfl, rfl, rfl⟩
  case hold => obtain ⟨_, rfl⟩ := h; exact ⟨rfl, rfl, rfl, rfl, rfl⟩
  case ledger => obtain ⟨_, _, _, _, rfl⟩ := h; exact ⟨rfl, rfl, rfl, rfl, rfl⟩
  case glass => obtain ⟨_, _, rfl⟩ := h; exact ⟨rfl, rfl, rfl, rfl, rfl⟩
  case place => obtain ⟨_, _, _, rfl⟩ := h; exact ⟨rfl, rfl, rfl, rfl, rfl⟩
  case unpack => obtain ⟨_, _, _, _, _, _, rfl⟩ := h; exact ⟨rfl, rfl, rfl, rfl, rfl⟩
  case evals => obtain ⟨_, rfl⟩ := h; exact ⟨rfl, rfl, rfl, rfl, rfl⟩
  case record => obtain ⟨_, _, _, _, _, rfl⟩ := h; exact ⟨rfl, rfl, rfl, rfl, rfl⟩
  case bring =>
    obtain ⟨_, _, _, _, _, _, _, _, _, _, _, _, _, _, rfl⟩ := h
    exact ⟨rfl, rfl, rfl, rfl, rfl⟩
  case write => obtain ⟨_, _, _, _, _, _, _, rfl⟩ := h; exact ⟨rfl, rfl, rfl, rfl, rfl⟩
  case rewrite => obtain ⟨_, _, _, _, _, _, rfl⟩ := h; exact ⟨rfl, rfl, rfl, rfl, rfl⟩
  case lock => obtain ⟨_, _, _, _, rfl⟩ := h; exact ⟨rfl, rfl, rfl, rfl, rfl⟩
  case patch =>
    obtain ⟨doc, peer, rfl⟩ := h
    obtain ⟨_, _, hrun⟩ := syncReplica_run doc peer s
    rw [hrun]
    exact ⟨rfl, rfl, rfl, rfl, rfl⟩
  case replica => obtain ⟨_, _, _, _, rfl⟩ := h; exact ⟨rfl, rfl, rfl, rfl, rfl⟩
  case unreplica => obtain ⟨_, _, rfl | rfl⟩ := h <;> exact ⟨rfl, rfl, rfl, rfl, rfl⟩
  case exported =>
    obtain ⟨_, _, _, _, _, _, _, _, _, _, _, _, rfl⟩ := h
    exact ⟨rfl, rfl, rfl, rfl, rfl⟩
  case load => obtain ⟨_, _, _, rfl⟩ := h; exact ⟨rfl, rfl, rfl, rfl, rfl⟩
  case tighten => obtain ⟨_, _, _, rfl⟩ := h; exact ⟨rfl, rfl, rfl, rfl, rfl⟩
  case member => obtain ⟨_, _, _, rfl⟩ := h; exact ⟨rfl, rfl, rfl, rfl, rfl⟩
  case persist => obtain ⟨_, _, _, rfl⟩ := h; exact ⟨rfl, rfl, rfl, rfl, rfl⟩
  case found => obtain ⟨_, _, rfl⟩ := h; exact ⟨rfl, rfl, rfl, rfl, rfl⟩
  case enrol => obtain ⟨_, _, rfl⟩ := h; exact ⟨rfl, rfl, rfl, rfl, rfl⟩
  case disable => obtain ⟨_, _, _, _, rfl⟩ := h; exact ⟨rfl, rfl, rfl, rfl, rfl⟩
  case roles => obtain ⟨_, _, _, _, rfl⟩ := h; exact ⟨rfl, rfl, rfl, rfl, rfl⟩
  case package => obtain ⟨_, rfl⟩ := h; exact ⟨rfl, rfl, rfl, rfl, rfl⟩
  case profile => obtain ⟨_, rfl⟩ := h; exact ⟨rfl, rfl, rfl, rfl, rfl⟩

namespace Core

/-! ### What always holds of the queue -/

/-- What was done for turns is within what they were allowed. -/
structure Counted (turns : List Turn) (deeds : List Deed) : Prop where
  asked : ∀ t ∈ turns, asksOf deeds t.id ≤ t.allowed + 1
  /-- A call is made at most once. -/
  called : ∀ t ∈ turns, callsOf deeds t.id + t.calls.length ≤ proposedOf deeds t.id
  asks : ∀ id, asksOf deeds id ≤ maxAgentSteps + 1
  calls : ∀ id, callsOf deeds id ≤ proposedOf deeds id

/-- Turns that were counted, and others that are. -/
theorem Counted.of_mem {xs ys : List Turn} {deeds : List Deed} (h : Counted xs deeds)
    (hys : ∀ y ∈ ys, y ∈ xs ∨ asksOf deeds y.id ≤ y.allowed + 1 ∧
      callsOf deeds y.id + y.calls.length ≤ proposedOf deeds y.id) : Counted ys deeds where
  asked y hy := (hys y hy).elim (h.asked y) And.left
  called y hy := (hys y hy).elim (h.called y) And.right
  asks := h.asks
  calls := h.calls

/-- Turns that got no further back. -/
theorem Counted.map {xs : List Turn} {deeds : List Deed} (h : Counted xs deeds) {f : Turn → Turn}
    (hid : ∀ x, (f x).id = x.id) (hallowed : ∀ x ∈ xs, x.allowed ≤ (f x).allowed)
    (hcalls : ∀ x ∈ xs, (f x).calls.length ≤ x.calls.length) : Counted (xs.map f) deeds := by
  refine h.of_mem fun y hy => .inr ?_
  obtain ⟨x, hx, rfl⟩ := List.mem_map.1 hy
  have hasked := h.asked x hx
  have hcalled := h.called x hx
  have hle := hallowed x hx
  have hlen := hcalls x hx
  rw [hid]
  omega

/-- Nothing was done for a turn no deed names. -/
theorem counts_eq_zero {deeds : List Deed} {id : Nat} (h : ∀ d ∈ deeds, d.turn ≠ id) :
    asksOf deeds id = 0 ∧ callsOf deeds id = 0 :=
  ⟨List.count_eq_zero.2 fun hd => h _ hd rfl, List.count_eq_zero.2 fun hd => h _ hd rfl⟩

/-- A turn with more calls to make, as many as were proposed. -/
theorem Counted.propose {xs : List Turn} {deeds : List Deed} (h : Counted xs deeds) (id : Nat)
    (calls : List ProposedCall) :
    Counted (xs.map fun x => if x.id = id then { x with calls := calls } else x)
      (deeds ++ [.proposed id calls.length]) := by
  have hasks : ∀ i, asksOf (deeds ++ [.proposed id calls.length]) i = asksOf deeds i := by
    simp [asksOf]
  have hcalls : ∀ i, callsOf (deeds ++ [.proposed id calls.length]) i = callsOf deeds i := by
    simp [callsOf]
  have hproposed : ∀ i, proposedOf (deeds ++ [.proposed id calls.length]) i =
      proposedOf deeds i + if id = i then calls.length else 0 := by
    simp [proposedOf, Deed.takes]
  refine ⟨fun y hy => ?_, fun y hy => ?_, fun i => ?_, fun i => ?_⟩
  · obtain ⟨x, hx, rfl⟩ := List.mem_map.1 hy
    rw [hasks]
    split
    · exact h.asked x hx
    · exact h.asked x hx
  · obtain ⟨x, hx, rfl⟩ := List.mem_map.1 hy
    rw [hcalls, hproposed]
    split
    · next hid =>
      -- what was left of the earlier calls is let go
      have := h.calls x.id
      simp only [hid, if_true] at this ⊢
      omega
    · have := h.called x hx
      omega
  · rw [hasks]
    exact h.asks i
  · have := h.calls i
    rw [hcalls, hproposed]
    omega

/-- A turn's next call made. -/
theorem Counted.call {xs : List Turn} {deeds : List Deed} (h : Counted xs deeds) {turn : Turn}
    (hturn : turn ∈ xs) (honly : ∀ x ∈ xs, x.id = turn.id → x = turn) {call : ProposedCall}
    {rest : List ProposedCall} (hrest : turn.calls = call :: rest) :
    Counted (xs.map fun x => if x.id = turn.id then { x with calls := rest } else x)
      (deeds ++ [.called turn.id]) := by
  have hasks : ∀ i, asksOf (deeds ++ [.called turn.id]) i = asksOf deeds i := by simp [asksOf]
  have hcalls : ∀ i, callsOf (deeds ++ [.called turn.id]) i =
      callsOf deeds i + if turn.id = i then 1 else 0 := by
    simp [callsOf, List.count_singleton]
  have hproposed : ∀ i, proposedOf (deeds ++ [.called turn.id]) i = proposedOf deeds i := by
    simp [proposedOf, Deed.takes]
  have hleft := h.called turn hturn
  rw [hrest, List.length_cons] at hleft
  refine ⟨fun y hy => ?_, fun y hy => ?_, fun i => ?_, fun i => ?_⟩
  · obtain ⟨x, hx, rfl⟩ := List.mem_map.1 hy
    rw [hasks]
    split
    · exact h.asked x hx
    · exact h.asked x hx
  · obtain ⟨x, hx, rfl⟩ := List.mem_map.1 hy
    rw [hcalls, hproposed]
    split
    · next hid =>
      obtain rfl := honly x hx hid
      simp only [if_true]
      omega
    · next hid =>
      have := h.called x hx
      rw [if_neg (Ne.symm hid)]
      omega
  · rw [hasks]
    exact h.asks i
  · have := h.calls i
    rw [hcalls, hproposed]
    split
    · next hid =>
      rw [← hid] at this ⊢
      omega
    · omega

/-- The model asked once more, where there is room. -/
theorem Counted.ask {xs : List Turn} {deeds : List Deed} (h : Counted xs deeds) {turn : Turn}
    (honly : ∀ x ∈ xs, x.id = turn.id → x = turn) (hroom : asksOf deeds turn.id ≤ turn.allowed)
    (hsteps : turn.steps < maxAgentSteps) : Counted xs (deeds ++ [.asked turn.id]) := by
  have hasks : ∀ i, asksOf (deeds ++ [.asked turn.id]) i =
      asksOf deeds i + if turn.id = i then 1 else 0 := by
    simp [asksOf, List.count_singleton]
  have hcalls : ∀ i, callsOf (deeds ++ [.asked turn.id]) i = callsOf deeds i := by simp [callsOf]
  have hproposed : ∀ i, proposedOf (deeds ++ [.asked turn.id]) i = proposedOf deeds i := by
    simp [proposedOf, Deed.takes]
  have hallowed : turn.allowed ≤ maxAgentSteps := by
    unfold Turn.allowed
    split <;> omega
  refine ⟨fun x hx => ?_, fun x hx => ?_, fun i => ?_, fun i => ?_⟩
  · have := h.asked x hx
    rw [hasks]
    split
    · next hid =>
      obtain rfl := honly x hx hid.symm
      omega
    · omega
  · rw [hcalls, hproposed]
    exact h.called x hx
  · have := h.asks i
    rw [hasks]
    split
    · next hid =>
      rw [← hid]
      omega
    · omega
  · rw [hcalls, hproposed]
    exact h.calls i

/-- What always holds of the queue of answers, and of whatever names one of them. -/
structure Sound (c : Core H) : Prop where
  /-- Turns stand in the order in which they came. -/
  sorted : c.turns.Pairwise fun a b => a.id < b.id
  young : ∀ t ∈ c.turns, t.id < c.nextTurn
  /-- Only a person's oldest turn is anything but behind. -/
  ordered : SlotLine.Ordered Turn.owner Turn.place c.turns
  /-- A turn waits until it has begun. -/
  waits : ∀ t ∈ c.turns, t.waiting = true ↔ t.begun = false
  begun : ∀ t ∈ c.turns, t.begun = true ↔ t.id ∈ c.begins
  past : ∀ id ∈ c.begins, id < c.nextTurn
  once : c.begins.Nodup
  /-- Core knows everyone who has a turn. -/
  known : ∀ t ∈ c.turns, (c.stateOf t.caller.user).isSome = true
  inline : ∀ m ∈ c.inline, m.turn ∈ c.begins
  posted : ∀ m ∈ c.posted, m.turn ∈ c.begins
  reading : ∀ r ∈ c.reading, r.turn ∈ c.begins
  atWork : ∀ id ∈ c.turnAtWork, id ∈ c.begins
  counted : Counted c.turns c.deeds
  did : ∀ d ∈ c.deeds, d.turn ∈ c.begins
  /-- An approval is asked for by a turn that has begun. -/
  pending : ∀ u st, c.stateOf u = some st → ∀ key p, st.pending.lookup key = some p →
    ∀ id ∈ p.turn, id ∈ c.begins

namespace Sound

variable {s t : Core H}

/-- What leaves the queue and everyone's approvals alone leaves it sound. -/
theorem frame (hs : s.Sound) (hflow : t.flow = s.flow)
    (hstate : ∀ u, (t.stateOf u).map UserState.pending = (s.stateOf u).map UserState.pending) :
    t.Sound := by
  simp only [flow, Prod.mk.injEq] at hflow
  obtain ⟨hturns, hnext, hbegins, hinline, hposted, hreading, hwork, -, hdeeds⟩ := hflow
  refine ⟨hturns ▸ hs.sorted, ?_, hturns ▸ hs.ordered, hturns ▸ hs.waits, ?_, ?_, hbegins ▸ hs.once,
    ?_, ?_, ?_, ?_, ?_, ?_, ?_, ?_⟩
  · rw [hturns, hnext]
    exact hs.young
  · rw [hturns, hbegins]
    exact hs.begun
  · rw [hbegins, hnext]
    exact hs.past
  · intro x hx
    have := congrArg Option.isSome (hstate x.caller.user)
    rw [Option.isSome_map, Option.isSome_map] at this
    rw [this]
    exact hs.known x (hturns ▸ hx)
  · rw [hinline, hbegins]
    exact hs.inline
  · rw [hposted, hbegins]
    exact hs.posted
  · rw [hreading, hbegins]
    exact hs.reading
  · rw [hwork, hbegins]
    exact hs.atWork
  · rw [hturns, hdeeds]
    exact hs.counted
  · rw [hdeeds, hbegins]
    exact hs.did
  · intro u st hst key p hp
    have hmap := hstate u
    rw [hst, Option.map_some, eq_comm, Option.map_eq_some_iff] at hmap
    obtain ⟨st', hst', heq⟩ := hmap
    rw [hbegins]
    exact hs.pending u st' hst' key p (heq ▸ hp)

theorem still {p : Part} (hs : s.Sound) (hp : p.still = true) (h : Act p s t) : t.Sound := by
  obtain ⟨hflow, -, hactive, husers, hpending⟩ := h.still hp
  refine hs.frame hflow fun u => ?_
  unfold stateOf
  rw [hactive, husers]
  split
  · simp [hpending]
  · rfl

/-- What names turns that have begun, as the turns and what has begun grow. -/
private theorem frame_flow (hs : s.Sound) (hinline : ∀ m ∈ t.inline, m.turn ∈ t.begins)
    (hposted : ∀ m ∈ t.posted, m.turn ∈ t.begins) (hreading : ∀ r ∈ t.reading, r.turn ∈ t.begins)
    (hwork : ∀ id ∈ t.turnAtWork, id ∈ t.begins) (hturns : t.turns = s.turns)
    (hnext : t.nextTurn = s.nextTurn) (hbegins : t.begins = s.begins)
    (hdeeds : t.deeds = s.deeds) (hstate : ∀ u, t.stateOf u = s.stateOf u) : t.Sound where
  sorted := hturns ▸ hs.sorted
  young := by rw [hturns, hnext]; exact hs.young
  ordered := hturns ▸ hs.ordered
  waits := hturns ▸ hs.waits
  begun := by rw [hturns, hbegins]; exact hs.begun
  past := by rw [hbegins, hnext]; exact hs.past
  once := hbegins ▸ hs.once
  known x hx := by rw [hstate]; exact hs.known x (hturns ▸ hx)
  inline := hinline
  posted := hposted
  reading := hreading
  atWork := hwork
  counted := by rw [hturns, hdeeds]; exact hs.counted
  did := by rw [hdeeds, hbegins]; exact hs.did
  pending u st hst := by rw [hbegins]; exact hs.pending u st (hstate u ▸ hst)

theorem mail (hs : s.Sound) (h : Act .mail s t) : t.Sound := by
  obtain ⟨message, hm, rfl⟩ := h
  have hpush : ∀ ms : List Internal, (∀ m ∈ ms, m.turn ∈ s.begins) →
      ∀ m ∈ ms ++ [message], m.turn ∈ s.begins := by
    intro ms hms m hmem
    rcases List.mem_append.1 hmem with h | h
    · exact hms m h
    · rw [List.mem_singleton.1 h]
      exact hm
  unfold post
  rw [run_modify]
  dsimp only
  split
  · exact hs.frame_flow (hpush _ hs.inline) hs.posted hs.reading hs.atWork rfl rfl rfl rfl fun _ => rfl
  · exact hs.frame_flow hs.inline (hpush _ hs.posted) hs.reading hs.atWork rfl rfl rfl rfl fun _ => rfl

theorem read (hs : s.Sound) (h : Act .read s t) : t.Sound := by
  obtain ⟨id, hid, prompt, rfl⟩ := h
  refine hs.frame_flow hs.inline hs.posted (fun r hr => ?_) hs.atWork rfl rfl rfl rfl fun _ => rfl
  rcases List.mem_append.1 hr with h | h
  · exact hs.reading r h
  · rw [List.mem_singleton.1 h]
    exact hid

theorem take (hs : s.Sound) (h : Act .take s t) : t.Sound := by
  obtain ⟨message, rest, hin, rfl⟩ := h
  exact hs.frame_flow (fun m hm => hs.inline m (hin ▸ List.mem_cons_of_mem _ hm)) hs.posted
    hs.reading hs.atWork rfl rfl rfl rfl fun _ => rfl

theorem inlining (hs : s.Sound) (h : Act .inlining s t) : t.Sound := by
  obtain ⟨_, rfl⟩ := h
  exact hs.frame_flow hs.inline hs.posted hs.reading hs.atWork rfl rfl rfl rfl fun _ => rfl

theorem atWork' (hs : s.Sound) (h : Act .atWork s t) : t.Sound := by
  obtain ⟨turn, hturn, rfl⟩ := h
  exact hs.frame_flow hs.inline hs.posted hs.reading hturn rfl rfl rfl rfl fun _ => rfl

/-- A state of the queue in which others' approvals are as they were, and the active user's
were asked for by turns that have begun. -/
private theorem frame_own (hs : s.Sound) {change : UserState → UserState}
    (hchange : ∀ key p, (change s.mine).pending.lookup key = some p → ∀ id ∈ p.turn,
      id ∈ s.begins) : (s.own change).Sound := by
  refine { hs with known := fun x hx => ?_, pending := fun u st hst => ?_ }
  · have := hs.known x hx
    unfold stateOf own at *
    dsimp only at *
    split at this <;> simp_all
  · unfold stateOf own at hst
    dsimp only at hst
    split at hst
    · obtain rfl := Option.some.inj hst
      exact hchange
    · next hne =>
      exact hs.pending u st ((if_neg hne).trans hst)

theorem ask (hs : s.Sound) (h : Act .ask s t) : t.Sound := by
  obtain ⟨id, tool, params, rfl⟩ := h
  refine hs.frame_own fun key p hp i hi => ?_
  by_cases hkey : key = id
  · subst hkey
    obtain rfl := Option.some.inj ((AList.lookup_insert _).symm.trans hp)
    exact hs.atWork i hi
  · exact hs.pending _ _ s.stateOf_active key p ((AList.lookup_insert_ne hkey).symm.trans hp) i hi

theorem lift (hs : s.Sound) (h : Act .lift s t) : t.Sound := by
  obtain ⟨id, rfl⟩ := h
  refine hs.frame_own fun key p hp i hi => ?_
  by_cases hkey : key = id
  · subst hkey
    simp at hp
  · exact hs.pending _ _ s.stateOf_active key p ((AList.lookup_erase_ne hkey).symm.trans hp) i hi

/-- A user Core knows, seated. -/
private theorem seated (hs : s.Sound) {caller : Caller} {st : UserState}
    (h : s.stateOf caller.user = some st) : (s.seated caller st).Sound :=
  hs.frame_flow hs.inline hs.posted hs.reading hs.atWork rfl rfl rfl rfl (stateOf_seated h)

theorem seat (hs : s.Sound) (h : Act .seat s t) : t.Sound := by
  obtain ⟨turn, _, st, hst, rfl⟩ := h
  exact hs.seated hst

theorem drop (hs : s.Sound) (h : Act .drop s t) : t.Sound := by
  obtain ⟨turn, _, st, hst, rfl⟩ := h
  have hfilter : ({ s with turns := s.turns.filter fun x => x.id ≠ turn.id } : Core H).Sound :=
    { hs with
      sorted := hs.sorted.filter _
      young := fun x hx => hs.young x (List.mem_of_mem_filter hx)
      ordered := hs.ordered.filter _
      waits := fun x hx => hs.waits x (List.mem_of_mem_filter hx)
      begun := fun x hx => hs.begun x (List.mem_of_mem_filter hx)
      counted := hs.counted.of_mem fun x hx => .inl (List.mem_of_mem_filter hx)
      known := fun x hx => hs.known x (List.mem_of_mem_filter hx) }
  exact hfilter.seated hst

theorem enter (hs : s.Sound) (h : Act .enter s t) : t.Sound := by
  obtain ⟨caller, rfl⟩ := h
  rcases activate_run caller s with ⟨st, hst, hrun⟩ | ⟨hnone, st, _, _, hpending, _, hrun⟩
  · rw [hrun]
    exact hs.seated hst
  · obtain ⟨workspaces, access, hhomed, -⟩ := s.homed_eq caller.user
    have hstate := stateOf_activate_new hnone
    rw [hrun, hhomed] at *
    refine { hs with known := fun x hx => ?_, pending := fun u st' hst' => ?_ }
    · rw [hstate]
      split
      · rfl
      · exact hs.known x hx
    · rw [hstate] at hst'
      split at hst'
      · obtain rfl := Option.some.inj hst'
        intro key p hp
        simp [hpending] at hp
      · exact hs.pending u st' hst'

/-! #### Turns that come, move and change -/

/-- Turns changed one by one, none of what the queue is sound by. -/
private theorem frame_map (hs : s.Sound) {f : Turn → Turn} (hid : ∀ x, (f x).id = x.id)
    (hcaller : ∀ x, (f x).caller = x.caller) (hbegun : ∀ x, (f x).begun = x.begun)
    (hplace : ∀ x ∈ s.turns, x.place = .behind → (f x).place = .behind)
    (hwaits : ∀ x ∈ s.turns, (f x).waiting = x.waiting) {deeds : List Deed}
    (hcounted : Counted (s.turns.map f) deeds) (hdid : ∀ d ∈ deeds, d.turn ∈ s.begins) :
    ({ s with turns := s.turns.map f, deeds := deeds } : Core H).Sound :=
  { hs with
    sorted := List.pairwise_map.2 (by simpa only [hid] using hs.sorted)
    young := by simpa [hid] using hs.young
    ordered := hs.ordered.map (fun x => congrArg Caller.user (hcaller x)) hplace
    waits := by
      intro y hy
      obtain ⟨x, hx, rfl⟩ := List.mem_map.1 hy
      rw [hwaits x hx, hbegun]
      exact hs.waits x hx
    begun := by simpa [hid, hbegun] using hs.begun
    counted := hcounted
    did := hdid
    known := by
      intro y hy
      obtain ⟨x, hx, rfl⟩ := List.mem_map.1 hy
      rw [hcaller]
      exact hs.known x hx }

theorem tweak (hs : s.Sound) (h : Act .tweak s t) : t.Sound := by
  obtain ⟨id, change, hchange, rfl⟩ := h
  have hid : ∀ x : Turn, (if x.id = id then change x else x).id = x.id := by
    intro x
    split
    · exact (hchange x).id
    · rfl
  refine hs.frame_map hid ?_ ?_ ?_ ?_ (hs.counted.map hid ?_ ?_) hs.did
  · intro x
    split
    · exact (hchange x).caller
    · rfl
  · intro x
    split
    · exact (hchange x).begun
    · rfl
  · intro x _ hx
    split
    · simpa only [Turn.place, (hchange x).state] using hx
    · exact hx
  · intro x _
    split
    · simp only [Turn.waiting, (hchange x).state]
    · rfl
  · intro x _
    split
    · exact (hchange x).allowed
    · exact Nat.le_refl _
  · intro x _
    split
    · exact (hchange x).calls
    · exact Nat.le_refl _

/-- A turn found is the only one of its id. -/
theorem turnOf_only (hs : s.Sound) {id : Nat} {turn : Turn} (h : s.turnOf id = some turn) :
    turn ∈ s.turns ∧ turn.id = id ∧ ∀ x ∈ s.turns, x.id = turn.id → x = turn := by
  have hmem : turn ∈ s.turns := List.mem_of_find?_eq_some h
  have hnodup : (s.turns.map Turn.id).Nodup :=
    (List.pairwise_map.2 hs.sorted).imp fun h => h.ne
  exact ⟨hmem, by simpa using List.find?_some h, fun x hx hid =>
    List.inj_on_of_nodup_map hnodup hx hmem hid⟩

/-- A turn's calls changed, by a deed done for it. -/
private theorem recalled (hs : s.Sound) {id : Nat} (hid : id ∈ s.begins)
    {calls : List ProposedCall} {deed : Deed} (hdeed : deed.turn = id)
    (hcounted : Counted (s.turns.map fun x => if x.id = id then { x with calls := calls } else x)
      (s.deeds ++ [deed])) :
    ((s.changeTurn id fun x => { x with calls := calls }).did deed).Sound := by
  refine hs.frame_map ?_ ?_ ?_ ?_ ?_ hcounted ?_
  · intro x
    split <;> rfl
  · intro x
    split <;> rfl
  · intro x
    split <;> rfl
  · intro x _ hx
    split <;> exact hx
  · intro x _
    split <;> rfl
  · intro d hd
    rcases List.mem_append.1 hd with hd | hd
    · exact hs.did d hd
    · rw [List.mem_singleton.1 hd, hdeed]
      exact hid

theorem propose (hs : s.Sound) (h : Act .propose s t) : t.Sound := by
  obtain ⟨id, hid, calls, rfl⟩ := h
  exact hs.recalled hid rfl (hs.counted.propose id calls)

theorem call (hs : s.Sound) (h : Act .call s t) : t.Sound := by
  obtain ⟨id, hid, turn, call, rest, hturn, hcalls, rfl⟩ := h
  obtain ⟨hmem, rfl, honly⟩ := hs.turnOf_only hturn
  exact hs.recalled hid rfl (hs.counted.call hmem honly hcalls)

theorem asked (hs : s.Sound) (h : Act .asked s t) : t.Sound := by
  obtain ⟨id, hid, ⟨turn, hturn, hroom, hsteps⟩, rfl⟩ := h
  obtain ⟨hmem, rfl, honly⟩ := hs.turnOf_only hturn
  refine { hs with counted := hs.counted.ask honly hroom hsteps, did := ?_ }
  intro d hd
  rcases List.mem_append.1 hd with hd | hd
  · exact hs.did d hd
  · rw [List.mem_singleton.1 hd]
    exact hid

/-- A turn that has begun is nowhere in the line. -/
theorem not_waiting (hs : s.Sound) {x : Turn} (hx : x ∈ s.turns) (hid : x.id ∈ s.begins) :
    x.waiting = false := by
  rw [Bool.eq_false_iff, ne_eq, hs.waits x hx, (hs.begun x hx).2 hid]
  simp

/-- A turn that has begun goes to another state that is not waiting. -/
private theorem setBegun (hs : s.Sound) {id : Nat} (hid : id ∈ s.begins) {state : TurnState}
    (hstate : ∀ x : Turn, x.state = state → x.waiting = false) :
    (s.changeTurn id fun x => { x with state := state }).Sound := by
  have hid' : ∀ x : Turn, (if x.id = id then { x with state := state } else x).id = x.id := by
    intro x
    split <;> rfl
  refine hs.frame_map hid' ?_ ?_ ?_ ?_ (hs.counted.map hid' ?_ ?_) hs.did
  · intro x
    split <;> rfl
  · intro x
    split <;> rfl
  · intro x hx hbehind
    split
    · next heq =>
      have := hs.not_waiting hx (heq ▸ hid)
      rw [← Turn.waits_place, hbehind] at this
      cases this
    · exact hbehind
  · intro x hx
    split
    · next heq => rw [hs.not_waiting hx (heq ▸ hid), hstate _ rfl]
    · rfl
  · intro x _
    split <;> exact Nat.le_refl _
  · intro x _
    split <;> exact Nat.le_refl _

theorem pause (hs : s.Sound) (h : Act .pause s t) : t.Sound := by
  obtain ⟨id, hid, rfl⟩ := h
  exact hs.setBegun hid fun x hx => by simp [Turn.waiting, hx]

theorem resume (hs : s.Sound) (h : Act .resume s t) : t.Sound := by
  obtain ⟨id, hid, rfl⟩ := h
  exact hs.setBegun hid fun x hx => by simp [Turn.waiting, hx]

/-- A change to one turn leaves the others as they are. -/
theorem map_others {xs : List Turn} {id : Nat} (change : Turn → Turn)
    (h : ∀ x ∈ xs, x.id ≠ id) :
    xs.map (fun t => if t.id = id then change t else t) = xs :=
  (List.map_congr_left fun x hx => if_neg (h x hx)).trans (List.map_id _)

/-- A turn's id is its alone. -/
theorem changeTurn_turns (hs : s.Sound) {before after : List Turn} {x : Turn}
    (h : s.turns = before ++ x :: after) (change : Turn → Turn) :
    (s.changeTurn x.id change).turns = before ++ change x :: after := by
  have hsorted := hs.sorted
  rw [h] at hsorted
  obtain ⟨-, hx, hbefore⟩ := List.pairwise_append.1 hsorted
  have hafter := (List.pairwise_cons.1 hx).1
  unfold changeTurn
  dsimp only
  rw [h, List.map_append, List.map_cons, if_pos rfl,
    map_others change fun y hy => (hbefore y hy x List.mem_cons_self).ne,
    map_others change fun y hy => (hafter y hy).ne']

/-- The next move is of a waiting turn of the queue, to where it goes. -/
theorem nextMove_spec {turn : Turn} {state : TurnState} (h : s.nextMove = some (turn, state)) :
    ∃ before after, s.turns = before ++ turn :: after ∧ turn.waiting = true ∧
      state = s.whereItGoes before turn ∧ state ≠ turn.state ∧
      ∀ b k a, before = b ++ k :: a → k.waiting = true → s.whereItGoes b k = k.state := by
  simpa using firstMove_eq_some h

/-- A turn moved where it goes keeps the order of its person's. -/
private theorem ordered_move (hs : s.Sound) {before after : List Turn} {x y : Turn}
    (h : s.turns = before ++ x :: after) (hy : y.caller = x.caller)
    (hplace : y.state = s.whereItGoes before x) :
    SlotLine.Ordered Turn.owner Turn.place (before ++ y :: after) := by
  have hord := hs.ordered
  rw [h] at hord
  by_cases hbehind : s.whereItGoes before x = .waitsForAnotherChat
  · have hyb : y.place = .behind := by simp [Turn.place, hplace, hbehind, TurnState.place]
    by_cases hx : x.place = .behind
    · obtain ⟨hb, hxa, hba⟩ := List.pairwise_append.1 hord
      obtain ⟨hxa, ha⟩ := List.pairwise_cons.1 hxa
      refine List.pairwise_append.2 ⟨hb, List.pairwise_cons.2 ⟨fun b hb' heq => ?_, ha⟩, ?_⟩
      · exact hxa b hb' (by simpa [Turn.owner, hy] using heq)
      · intro a ha' b hb' heq
        rcases List.mem_cons.1 hb' with rfl | hb'
        · exact hyb
        · exact hba a ha' b (List.mem_cons_of_mem _ hb') heq
    · exact hord.put (congrArg Caller.user hy) (hord.none_older hx)
  · refine hord.put (congrArg Caller.user hy) (SlotLine.none_older_of_goes
      (?_ : SlotLine.goes Turn.owner Turn.place s.cap s.turns before x ≠ .behind))
    rw [← place_whereItGoes]
    intro hp
    unfold TurnState.place at hp
    split at hp <;> simp_all

/-- One turn new or moved, begun now or not, and the rest as it was. -/
private theorem frame_one (hs : s.Sound) {before after : List Turn} {y : Turn}
    (hturns : t.turns = before ++ y :: after)
    (hothers : ∀ z, z ∈ before ∨ z ∈ after → z ∈ s.turns ∧ z.id ≠ y.id)
    (hsorted : t.turns.Pairwise fun a b => a.id < b.id) (hyoung : y.id < t.nextTurn)
    (hnext : s.nextTurn ≤ t.nextTurn) (hordered : SlotLine.Ordered Turn.owner Turn.place t.turns)
    (hwaits : y.waiting = true ↔ y.begun = false) (hbegun : y.begun = true ↔ y.id ∈ t.begins)
    (hgrow : ∀ id ∈ s.begins, id ∈ t.begins)
    (honly : ∀ id ∈ t.begins, id ∈ s.begins ∨ id = y.id) (honce : t.begins.Nodup)
    (hknown : (s.stateOf y.caller.user).isSome = true)
    (hstate : ∀ u, t.stateOf u = s.stateOf u) (hinline : t.inline = s.inline)
    (hposted : t.posted = s.posted) (hreading : t.reading = s.reading)
    (hwork : t.turnAtWork = s.turnAtWork) (hdeeds : t.deeds = s.deeds)
    (hasked : asksOf s.deeds y.id ≤ y.allowed + 1)
    (hcalled : callsOf s.deeds y.id + y.calls.length ≤ proposedOf s.deeds y.id) : t.Sound := by
  have hcases : ∀ z ∈ t.turns, z = y ∨ z ∈ s.turns ∧ z.id ≠ y.id := by
    intro z hz
    rw [hturns] at hz
    rcases List.mem_append.1 hz with hz | hz
    · exact .inr (hothers z (.inl hz))
    · rcases List.mem_cons.1 hz with rfl | hz
      · exact .inl rfl
      · exact .inr (hothers z (.inr hz))
  refine ⟨hsorted, ?_, hordered, ?_, ?_, ?_, honce, ?_, ?_, ?_, ?_, ?_, ?_, ?_, ?_⟩
  · intro z hz
    rcases hcases z hz with rfl | ⟨hz, -⟩
    · exact hyoung
    · exact (hs.young z hz).trans_le hnext
  · intro z hz
    rcases hcases z hz with rfl | ⟨hz, -⟩
    · exact hwaits
    · exact hs.waits z hz
  · intro z hz
    rcases hcases z hz with rfl | ⟨hz, hne⟩
    · exact hbegun
    · rw [hs.begun z hz]
      exact ⟨hgrow _, fun hmem => (honly _ hmem).resolve_right hne⟩
  · intro id hid
    rcases honly id hid with h | rfl
    · exact (hs.past id h).trans_le hnext
    · exact hyoung
  · intro z hz
    rw [hstate]
    rcases hcases z hz with rfl | ⟨hz, -⟩
    · exact hknown
    · exact hs.known z hz
  · rw [hinline]
    exact fun m hm => hgrow _ (hs.inline m hm)
  · rw [hposted]
    exact fun m hm => hgrow _ (hs.posted m hm)
  · rw [hreading]
    exact fun r hr => hgrow _ (hs.reading r hr)
  · rw [hwork]
    exact fun id hid => hgrow _ (hs.atWork id hid)
  · rw [hdeeds]
    refine hs.counted.of_mem fun z hz => ?_
    rcases hcases z hz with rfl | ⟨hz, -⟩
    · exact .inr ⟨hasked, hcalled⟩
    · exact .inl hz
  · rw [hdeeds]
    exact fun d hd => hgrow _ (hs.did d hd)
  · intro u st hst key p hp id hid
    exact hgrow _ (hs.pending u st (hstate u ▸ hst) key p hp id hid)

private theorem others (hs : s.Sound) {before after : List Turn} {x : Turn}
    (h : s.turns = before ++ x :: after) :
    ∀ z, z ∈ before ∨ z ∈ after → z ∈ s.turns ∧ z.id ≠ x.id := by
  have hsorted := hs.sorted
  rw [h] at hsorted
  obtain ⟨-, hx, hbefore⟩ := List.pairwise_append.1 hsorted
  rintro z (hz | hz)
  · exact ⟨by simp [h, hz], (hbefore z hz x List.mem_cons_self).ne⟩
  · exact ⟨by simp [h, hz], ((List.pairwise_cons.1 hx).1 z hz).ne'⟩

/-- A turn changed in place stands where it stood. -/
theorem sorted_put (hs : s.Sound) {before after : List Turn} {x y : Turn}
    (h : s.turns = before ++ x :: after) (hid : y.id = x.id) :
    (before ++ y :: after).Pairwise fun a b => a.id < b.id := by
  have hsorted : (s.turns.map Turn.id).Pairwise (· < ·) := List.pairwise_map.2 hs.sorted
  rw [h, List.map_append, List.map_cons, ← hid, ← List.map_cons, ← List.map_append] at hsorted
  exact List.pairwise_map.1 hsorted

theorem wait (hs : s.Sound) (h : Act .wait s t) : t.Sound := by
  obtain ⟨x, state, hnext, hne, rfl⟩ := h
  obtain ⟨before, after, hturns, hwaiting, hstate, -, -⟩ := nextMove_spec hnext
  have hx : x ∈ s.turns := by simp [hturns]
  have hput := hs.changeTurn_turns hturns fun y => { y with state := state }
  refine hs.frame_one hput (fun z hz => hs.others hturns z hz) ?_ (hs.young x hx) (Nat.le_refl _) ?_ ?_
    (hs.begun x hx) (fun _ => id) (fun _ => .inl) hs.once (hs.known x hx) (fun _ => rfl)
    rfl rfl rfl rfl rfl (hs.counted.asked x hx) (hs.counted.called x hx)
  · rw [hput]
    exact hs.sorted_put hturns rfl
  · rw [hput]
    exact hs.ordered_move hturns rfl hstate
  · rw [waiting_of_whereItGoes (hstate ▸ hne) hstate]
    simpa [hwaiting] using hs.waits x hx

theorem begin (hs : s.Sound) (h : Act .begin s t) : t.Sound := by
  obtain ⟨x, events, hnext, -, rfl⟩ := h
  obtain ⟨before, after, hturns, hwaiting, hstate, -, -⟩ := nextMove_spec hnext
  have hx : x ∈ s.turns := by simp [hturns]
  have hunbegun : x.id ∉ s.begins := by
    rw [← hs.begun x hx, (hs.waits x hx).1 hwaiting]
    simp
  have hput := hs.changeTurn_turns hturns fun y => { y with state := .writing, begun := true }
  refine hs.frame_one hput (fun z hz => hs.others hturns z hz) ?_ (hs.young x hx) (Nat.le_refl _) ?_ ?_ ?_
    (fun _ hid => List.mem_append_left _ hid) (fun id hid => ?_) ?_ (hs.known x hx)
    (fun _ => rfl) rfl rfl rfl rfl rfl (hs.counted.asked x hx) (hs.counted.called x hx)
  · exact hput ▸ hs.sorted_put hturns rfl
  · exact hput ▸ hs.ordered_move hturns rfl hstate
  · simp [Turn.waiting]
  · simp
  · simpa using hid
  · exact List.Nodup.append hs.once (by simp) (by simpa using hunbegun)

/-- Nothing was done yet for the turn that comes next. -/
theorem uncounted (hs : s.Sound) :
    asksOf s.deeds s.nextTurn = 0 ∧ callsOf s.deeds s.nextTurn = 0 :=
  counts_eq_zero fun d hd h => absurd (hs.past _ (hs.did d hd)) (h ▸ Nat.lt_irrefl _)

/-- A turn that comes now. -/
private theorem comes (hs : s.Sound) {y : Turn} (hid : y.id = s.nextTurn)
    (hcaller : y.caller = s.active)
    (hstate : y.state = s.whereItGoes s.turns y) :
    (∀ z, z ∈ s.turns ∨ z ∈ ([] : List Turn) → z ∈ s.turns ∧ z.id ≠ y.id) ∧
    (s.turns ++ [y]).Pairwise (fun a b => a.id < b.id) ∧
    SlotLine.Ordered Turn.owner Turn.place (s.turns ++ [y]) ∧
    (s.stateOf y.caller.user).isSome = true ∧ y.id ∉ s.begins := by
  refine ⟨?_, ?_, ?_, ?_, ?_⟩
  · rintro z (hz | hz)
    · exact ⟨hz, hid ▸ (hs.young z hz).ne⟩
    · cases hz
  · refine List.pairwise_append.2 ⟨hs.sorted, List.pairwise_singleton _ _, fun a ha b hb => ?_⟩
    rw [List.mem_singleton.1 hb, hid]
    exact hs.young a ha
  · refine hs.ordered.push fun ⟨o, ho, heq⟩ => ?_
    rw [Turn.place, hstate, place_whereItGoes, SlotLine.goes_eq_behind_iff]
    exact ⟨o, ho, heq⟩
  · rw [hcaller, stateOf_active]
    rfl
  · intro hmem
    exact absurd (hs.past _ hmem) (hid ▸ Nat.lt_irrefl _)

theorem push (hs : s.Sound) (h : Act .push s t) : t.Sound := by
  obtain ⟨conversation, continuing, state, hstate, hne, rfl⟩ := h
  obtain ⟨hothers, hsorted, hordered, hknown, hbegins⟩ :=
    hs.comes (y := { s.newTurn conversation continuing with state := state }) rfl rfl hstate
  refine hs.frame_one rfl hothers hsorted (Nat.lt_succ_self _) (Nat.le_succ _) hordered ?_ ?_
    (fun _ => id) (fun _ => .inl) hs.once hknown (fun _ => rfl) rfl rfl rfl rfl rfl ?_ ?_
  · rw [waiting_of_whereItGoes (hstate ▸ hne) hstate]
    simp [newTurn]
  · simpa [newTurn, queued] using hbegins
  · exact hs.uncounted.1.trans_le (Nat.zero_le _)
  · exact hs.uncounted.2.trans_le (Nat.zero_le _)

theorem start (hs : s.Sound) (h : Act .start s t) : t.Sound := by
  obtain ⟨conversation, continuing, events, hstate, -, rfl⟩ := h
  obtain ⟨hothers, hsorted, hordered, hknown, hbegins⟩ :=
    hs.comes (y := { s.newTurn conversation continuing with state := .writing, begun := true })
      rfl rfl hstate.symm
  refine hs.frame_one rfl hothers hsorted (Nat.lt_succ_self _) (Nat.le_succ _) hordered ?_ ?_
    (fun _ hid => List.mem_append_left _ hid) (fun id hid => by simpa [newTurn] using hid) ?_
    hknown (fun _ => rfl) rfl rfl rfl rfl rfl (hs.uncounted.1.trans_le (Nat.zero_le _))
    (hs.uncounted.2.trans_le (Nat.zero_le _))
  · simp [Turn.waiting]
  · simp [newTurn]
  · exact List.Nodup.append hs.once (by simp) (by simpa [newTurn] using hbegins)

/-- Every act but the ending of a turn as a whole keeps the queue sound. -/
theorem act {p : Part} (hs : s.Sound) (hp : p ≠ .finish) (h : Act p s t) : t.Sound := by
  by_cases hstill : p.still = true
  · exact hs.still hstill h
  cases p <;> first | exact absurd rfl hstill | skip
  case ask => exact hs.ask h
  case lift => exact hs.lift h
  case seat => exact hs.seat h
  case enter => exact hs.enter h
  case push => exact hs.push h
  case start => exact hs.start h
  case tweak => exact hs.tweak h
  case propose => exact hs.propose h
  case call => exact hs.call h
  case asked => exact hs.asked h
  case pause => exact hs.pause h
  case resume => exact hs.resume h
  case drop => exact hs.drop h
  case wait => exact hs.wait h
  case begin => exact hs.begin h
  case finish => exact absurd rfl hp
  case mail => exact hs.mail h
  case read => exact hs.read h
  case take => exact hs.take h
  case inlining => exact hs.inlining h
  case atWork => exact hs.atWork' h

end Sound

end Core

end LocalSpace
