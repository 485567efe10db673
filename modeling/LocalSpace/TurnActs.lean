import LocalSpace.Queue

/-!
# By which acts turns go

The agent loop, operation by operation: what a turn does to its chat and its ledger, how it
leaves the queue, how whoever waits is moved on, and what a step of a turn may do. All of it
is said from a sound queue, which it keeps sound: `Soundly ps` is "from a sound queue, by acts
of the kinds `ps`, to a sound queue".
-/

namespace LocalSpace

open Library

variable {H : Host} {ps qs : List Part} {α : Type} {m : Program H α}

/-- From a sound queue by some kinds of acts to a sound queue. -/
abbrev Soundly (ps : List Part) : Core H → Core H → Prop :=
  Keeping Core.Sound (Does Act ps)

/-- The same, for what a turn that has begun does. -/
abbrev SoundlyFor (id : Nat) (ps : List Part) : Core H → Core H → Prop :=
  Keeping (fun c => c.Sound ∧ id ∈ c.begins) (Does Act ps)

theorem Core.Sound.does {s t : Core H} (hs : s.Sound) (h : Does Act ps s t)
    (hps : Part.finish ∉ ps) : t.Sound :=
  h.preserves (fun _ hp _ _ hact hs => hs.act (fun h => hps (h ▸ hp)) hact) hs

/-! ### What has begun stays begun -/

theorem Act.begins_subset {p : Part} {s t : Core H} (hp : p ≠ .finish) (h : Act p s t) :
    s.begins ⊆ t.begins := by
  by_cases hstill : p.still = true
  · have hflow := (h.still hstill).1
    simp only [Core.flow, Prod.mk.injEq] at hflow
    rw [hflow.2.2.1]
    exact List.Subset.refl _
  cases p <;> first | exact absurd rfl hstill | skip
  case ask => obtain ⟨_, _, _, rfl⟩ := h; exact List.Subset.refl _
  case lift => obtain ⟨_, rfl⟩ := h; exact List.Subset.refl _
  case seat => obtain ⟨_, _, _, _, rfl⟩ := h; exact List.Subset.refl _
  case enter =>
    obtain ⟨caller, rfl⟩ := h
    rcases Core.activate_run caller s with ⟨_, _, hrun⟩ | ⟨_, _, _, _, _, _, hrun⟩
    · rw [hrun]
      exact List.Subset.refl _
    · obtain ⟨_, _, hhomed, -⟩ := s.homed_eq caller.user
      rw [hrun, hhomed]
      exact List.Subset.refl _
  case push => obtain ⟨_, _, _, _, _, rfl⟩ := h; exact List.Subset.refl _
  case start => obtain ⟨_, _, _, _, _, rfl⟩ := h; exact List.subset_append_left _ _
  case tweak => obtain ⟨_, _, _, rfl⟩ := h; exact List.Subset.refl _
  case propose => obtain ⟨_, _, _, rfl⟩ := h; exact List.Subset.refl _
  case call => obtain ⟨_, _, _, _, _, _, _, rfl⟩ := h; exact List.Subset.refl _
  case pause => obtain ⟨_, _, rfl⟩ := h; exact List.Subset.refl _
  case resume => obtain ⟨_, _, rfl⟩ := h; exact List.Subset.refl _
  case drop => obtain ⟨_, _, _, _, rfl⟩ := h; exact List.Subset.refl _
  case wait => obtain ⟨_, _, _, _, rfl⟩ := h; exact List.Subset.refl _
  case begin => obtain ⟨_, _, _, _, rfl⟩ := h; exact List.subset_append_left _ _
  case finish => exact absurd rfl hp
  case mail =>
    obtain ⟨_, _, rfl⟩ := h
    unfold post
    rw [run_modify]
    dsimp only
    split <;> exact List.Subset.refl _
  case asked => obtain ⟨_, _, _, rfl⟩ := h; exact List.Subset.refl _
  case read => obtain ⟨_, _, _, rfl⟩ := h; exact List.Subset.refl _
  case take => obtain ⟨_, _, _, rfl⟩ := h; exact List.Subset.refl _
  case inlining => obtain ⟨_, rfl⟩ := h; exact List.Subset.refl _
  case atWork => obtain ⟨_, _, rfl⟩ := h; exact List.Subset.refl _

theorem begins_subset_of_does {s t : Core H} (h : Does Act ps s t) (hps : Part.finish ∉ ps) :
    s.begins ⊆ t.begins :=
  h.preserves (I := fun t => s.begins ⊆ t.begins)
    (fun _ hp _ _ hact hs => List.Subset.trans hs (hact.begins_subset fun h => hps (h ▸ hp)))
    (List.Subset.refl _)

/-- What goes by acts that end no turn keeps the queue sound. -/
theorem soundly_short (h : Within (Does Act ps) m) (hps : Part.finish ∉ ps) :
    Within (Soundly ps) m :=
  h.keeping fun _ _ hst hs => hs.does hst hps

theorem soundlyFor_short {id : Nat} (h : Within (Soundly ps) m)
    (hps : Part.finish ∉ ps) : Within (SoundlyFor id ps) m :=
  h.along fun _ _ hst hid => begins_subset_of_does hst hps hid

/-! ### Whose turn it is -/

theorem activate_seats {s : Core H} (hs : s.Sound) {turn : Turn} (hturn : turn ∈ s.turns) :
    ∃ st, s.stateOf turn.caller.user = some st ∧
      ((activate turn.caller).run s).2 = s.seated turn.caller st := by
  rcases Core.activate_run turn.caller s with h | ⟨hnone, -⟩
  · exact h
  · have := hs.known turn hturn
    rw [hnone] at this
    cases this

theorem activate_does {s : Core H} (hs : s.Sound) {turn : Turn} (hturn : turn ∈ s.turns) :
    Does Act [.seat] s ((activate turn.caller).run s).2 := by
  obtain ⟨st, hst, hrun⟩ := activate_seats hs hturn
  rw [hrun]
  exact Does.single (p := .seat) ⟨turn, hturn, st, hst, rfl⟩ (by simp)

/-! ### Chats -/

theorem updateElsewhere_eq (db : Store) (user : UserId) (workspace : WorkspaceId)
    (id : ConversationId) (now : Nat) (change : List ChatMessage → List ChatMessage) :
    ∃ rows, db.updateElsewhere H user workspace id now change =
      { db with conversations := rows } := by
  unfold Store.updateElsewhere
  split <;> exact ⟨_, rfl⟩

theorem persist_eq (s : Chats) (db : Store) (c : Conversation) :
    ∃ rows, s.persist db c = { db with conversations := rows } := by
  unfold Chats.persist
  split <;> exact ⟨_, rfl⟩

theorem record_eq (s : Chats) (db : Store) (messages : List ChatMessage) (now : Nat) :
    ∃ rows, (s.record H db messages now).2 = { db with conversations := rows } := by
  unfold Chats.record
  split
  · exact ⟨_, rfl⟩
  · exact persist_eq _ _ _

theorem update_eq (s : Chats) (db : Store) (id : ConversationId) (now : Nat)
    (change : List ChatMessage → List ChatMessage) :
    ∃ rows, (s.update H db id now change).2 = { db with conversations := rows } := by
  unfold Chats.update
  split
  · exact ⟨_, rfl⟩
  · exact persist_eq _ _ _

/-- Writing a chat. -/
abbrev chatActs : List Part := [.note, .chat]

/-- A change to the active user's chats and to the database's. -/
theorem chat_does (hps : Part.chat ∈ ps) {f : Core H → Core H}
    (hf : ∀ s, ∃ transcript chats rows,
      f s = { s.own (fun u => { u with transcript := transcript, conversations := chats }) with
        store := { s.store with conversations := rows } }) :
    Within (Does Act ps) (modify f : Program H Unit) :=
  Within.change_by Part.chat hps (fun s => by
    obtain ⟨transcript, chats, rows, h⟩ := hf s
    exact ⟨transcript, chats, rows, s.store.currentConversations, h⟩)

theorem recordConversation_does : Within (Does Act chatActs) (recordConversation (H := H)) := by
  unfold recordConversation
  refine Within.bind Within.get fun c => ?_
  split
  · refine (nowMs_does (by simp)).bind fun now => chat_does (by simp) fun s => ?_
    obtain ⟨rows, hrows⟩ := record_eq (H := H) s.mine.conversations s.store s.mine.transcript now
    exact ⟨s.mine.transcript, _, rows, by rw [← hrows]; rfl⟩
  · exact Within.pure _

theorem writeChat_does (user : UserId) (workspace : WorkspaceId) (conversation : ConversationId)
    (change : List ChatMessage → List ChatMessage) :
    Within (Does Act chatActs) (writeChat (H := H) user workspace conversation change) := by
  unfold writeChat
  refine (nowMs_does (by simp)).bind fun now => Within.bind Within.get fun c => ?_
  split
  · exact Within.bind (chat_does (by simp) fun s =>
      ⟨change s.mine.transcript, s.mine.conversations, s.store.conversations, rfl⟩) fun _ =>
        recordConversation_does
  · split
    · refine chat_does (by simp) fun s => ?_
      obtain ⟨rows, hrows⟩ := update_eq (H := H) s.mine.conversations s.store conversation now change
      exact ⟨s.mine.transcript, _, rows, by rw [← hrows]; rfl⟩
    · refine chat_does (by simp) fun s => ?_
      obtain ⟨rows, hrows⟩ := updateElsewhere_eq (H := H) s.store user workspace conversation now
        change
      exact ⟨s.mine.transcript, s.mine.conversations, rows, by rw [← hrows]; rfl⟩

theorem keep_does (id : Nat) (a : Answer) : Within (Does Act chatActs) (keep (H := H) id a) := by
  unfold keep
  refine Within.bind Within.get fun c => ?_
  split
  · exact Within.pure _
  · exact writeChat_does _ _ _ _

theorem recordCall_does (id : Nat) (tool : String) (params : Json) (outcome : ToolOutcome) :
    Within (Does Act chatActs) (recordCall (H := H) id tool params outcome) := by
  unfold recordCall
  refine Within.bind Within.get fun c => ?_
  split
  · exact Within.pure _
  · exact writeChat_does _ _ _ _

/-! ### What a turn leaves behind -/

theorem finishRun_does : Within (Does Act ledgerActs) (finishRun (H := H)) := by
  unfold finishRun
  refine Within.bind Within.get fun c => ?_
  split
  · exact Within.pure _
  · next run _ =>
    refine Within.bind (Within.change_by Part.ledger (by simp) fun s =>
      ⟨none, s.mine.task, s.mine.proposals, s.store.ledgers, rfl⟩) fun _ => ?_
    refine Within.bind Within.get fun c => ?_
    have hpropose : ∀ docs : List DocId, ∀ summary : String, Within (Does Act ledgerActs)
        (do
          modify fun c => c.own fun u => { u with
            proposals := u.proposals ++ [⟨run, docs, summary, c.cfg.user⟩] }
          notice .info s!"1 proposal from your agent: {summary} — apply or discard it" :
            Program H Unit) := fun docs summary =>
      Within.bind (Within.change_by Part.ledger (by simp) fun s =>
        ⟨s.mine.run, s.mine.task, s.mine.proposals ++ [⟨run, docs, summary, s.cfg.user⟩],
          s.store.ledgers, rfl⟩) fun _ => notice_does _ _ (by simp)
    split
    · refine (changeTask_does _ (by simp)).bind fun _ => emitTask_does.bind fun _ => ?_
      refine Within.bind Within.get fun c => ?_
      dsimp only
      split
      · exact hpropose _ _
      · exact Within.pure _
    · refine Within.bind Within.get fun c => ?_
      dsimp only
      split
      · exact hpropose _ _
      · exact Within.pure _

theorem withdraw_does (key : String) : Within (Does Act [.note, .lift]) (withdraw (H := H) key) :=
  Within.bind (Within.change_by Part.lift (by simp) fun _ => ⟨key, rfl⟩) fun _ =>
    emit_does rfl (by simp)

/-- A turn leaving the queue. -/
abbrev closeActs : List Part := [.note, .drop, .lift, .ledger]

theorem closeTurn_does {s : Core H} (hs : s.Sound) {turn : Turn} (hturn : turn ∈ s.turns)
    (how : TurnState) : Does Act closeActs s ((closeTurn turn how).run s).2 := by
  unfold closeTurn
  rw [run_bind, run_modify]
  dsimp only
  have hknown := hs.known turn hturn
  obtain ⟨st, hst⟩ := Option.isSome_iff_exists.1 hknown
  have hrun : ((activate turn.caller).run
      { s with turns := s.turns.filter fun t => t.id ≠ turn.id }).2 =
      ({ s with turns := s.turns.filter fun t => t.id ≠ turn.id } : Core H).seated
        turn.caller st := by
    rcases Core.activate_run turn.caller
      { s with turns := s.turns.filter fun t => t.id ≠ turn.id } with ⟨st', hst', hrun⟩ | ⟨hnone, -⟩
    · obtain rfl := Option.some.inj (hst.symm.trans hst')
      exact hrun
    · exact absurd hst (by simp [show s.stateOf turn.caller.user = none from hnone])
  rw [run_bind, hrun]
  refine (Does.single (p := .drop) ⟨turn, hturn, st, hst, rfl⟩ (by simp)).trans ?_
  refine (?_ : Within (Does Act closeActs) _) _
  refine Within.bind Within.get fun c => ?_
  refine Within.bind (Within.forM fun _ _ => ((withdraw_does _).more (by simp))) fun _ => ?_
  have hend : Within (Does Act closeActs)
      (do
        if turn.begun then finishRun
        emit (.assistantDone turn.conversation)
        emit (.turnChanged turn.conversation how) : Program H Unit) := by
    split
    · exact (finishRun_does.more (by simp)).bind fun _ => (emit_does rfl (by simp)).bind fun _ =>
        emit_does rfl (by simp)
    · exact (emit_does rfl (by simp)).bind fun _ => emit_does rfl (by simp)
  split
  · exact (notice_does _ _ (by simp)).bind fun _ => hend
  · exact hend

/-! ### A model step -/

theorem post_does {message : Internal} {id : Nat} (hid : message.turn = id)
    (hps : Part.mail ∈ ps) (hfinish : Part.finish ∉ ps) :
    Within (SoundlyFor id ps) (post (H := H) message) := by
  intro s hs
  have hact : Does Act ps s ((post message).run s).2 :=
    Does.single (p := .mail) ⟨message, hid ▸ hs.2, rfl⟩ hps
  exact ⟨hact, hs.1.does hact hfinish, begins_subset_of_does hact hfinish hs.2⟩

theorem tweak_does (id : Nat) {change : Turn → Turn} (hchange : ∀ x, SameTurn x (change x))
    (hps : Part.tweak ∈ ps) :
    Within (Does Act ps) (modify fun c => c.changeTurn id change : Program H Unit) :=
  Within.change_by Part.tweak hps (fun _ => ⟨id, change, hchange, rfl⟩)

/-- Gathering a prompt and keeping a chat. -/
abbrev promptActs : List Part := [.note, .record, .bring, .chat]

/-- What gathers a prompt and keeps a chat leaves the turns as they are, and what was done for
them. -/
theorem flow_of_prompt {s t : Core H} (h : Does Act promptActs s t) : t.flow = s.flow := by
  refine h.preserves (I := fun t => t.flow = s.flow) (fun p hp u v ha hu => ?_) rfl
  have hstill : p.still = true := by
    clear ha
    revert p
    decide
  exact (ha.still hstill).1.trans hu

/-- There is room for a turn as long as it is as it was, and what was done for it. -/
theorem Core.Room.congr {s t : Core H} {id : Nat} (hs : s.Room id) (hturns : t.turns = s.turns)
    (hdeeds : t.deeds = s.deeds) : t.Room id := by
  unfold Core.Room Core.turnOf at *
  rw [hturns, hdeeds]
  exact hs

/-- A turn changed is still found. -/
theorem turnOf_changeTurn {s : Core H} {id : Nat} {turn : Turn} {change : Turn → Turn}
    (h : s.turnOf id = some turn) (hchange : ∀ x, (change x).id = x.id) :
    (s.changeTurn id change).turnOf id = some (change turn) := by
  have hid : turn.id = id := by simpa using List.find?_some h
  have hsame : ((fun t : Turn => decide (t.id = id)) ∘
      fun t => if t.id = id then change t else t) = fun t => decide (t.id = id) := by
    funext t
    dsimp only [Function.comp]
    split
    · rw [hchange]
    · rfl
  unfold Core.turnOf Core.changeTurn at *
  dsimp only
  rw [List.find?_map, hsame, h, Option.map_some, if_pos hid]

/-- A relation that allows what a turn does to ask the model. -/
structure Asking (R : Core H → Core H → Prop) (id : Nat) : Prop where
  preorder : IsPreorder (Core H) R
  prompt : ∀ {α : Type} {m : Program H α}, Within (Does Act promptActs) m → Within R m
  tweak : ∀ {change : Turn → Turn}, (∀ x, SameTurn x (change x)) →
    Within R (modify fun c => c.changeTurn id change : Program H Unit)
  post : ∀ message : Internal, message.turn = id → Within R (post message)
  asked : ∀ {s : Core H}, s.Room id → R s (s.did (.asked id))
  read : ∀ prompt, Within R (modify fun c => { c with
    reading := c.reading ++ [⟨id, prompt⟩] } : Program H Unit)

section

variable {R : Core H → Core H → Prop} {id : Nat}

theorem readTheModel_within (hR : Asking R id) (prompt : Prompt) {s : Core H} (hs : s.Room id) :
    R s ((readTheModel id prompt).run s).2 := by
  have := hR.preorder
  unfold readTheModel
  refine Within.change_bind (hR.asked hs) fun _ => ?_
  refine Within.bind Within.get fun c => ?_
  split
  · exact Within.bind (hR.prompt (nextRead_does (by simp))) fun n => hR.post _ rfl
  · exact hR.read prompt

/-- What is done for a prompt, and what follows it where there is still room. -/
private theorem prompt_bind (hR : Asking R id) {α β : Type} {m : Program H α}
    {k : α → Program H β} (hm : Within (Does Act promptActs) m)
    (hk : ∀ a s, s.Room id → R s ((k a).run s).2) {s : Core H} (hs : s.Room id) :
    R s ((m >>= k).run s).2 := by
  have := hR.preorder
  have hflow := flow_of_prompt (hm s)
  simp only [Core.flow, Prod.mk.injEq] at hflow
  exact IsTrans.trans _ _ _ (hR.prompt hm s) (hk _ _ (hs.congr hflow.1 hflow.2.2.2.2.2.2.2.2))

/-- Where there is room for one more question. -/
theorem modelStep_within {turn : Turn} (hR : Asking R turn.id) {s : Core H}
    (hs : s.Room turn.id) : R s ((modelStep turn).run s).2 := by
  have := hR.preorder
  unfold modelStep
  have htail : ∀ (empty : Bool) (prompt : Prompt) (s : Core H), s.Room turn.id → R s
      ((do
        if empty then
          writeChat turn.caller.user turn.workspace turn.conversation withoutEmptyStop
          modify fun c => c.changeTurn turn.id fun t => { t with continuing := false }
        readTheModel turn.id prompt : Program H Unit).run s).2 := by
    intro empty prompt s hs
    split
    · refine prompt_bind hR ((writeChat_does _ _ _ _).more (by simp)) (fun _ s hs => ?_) hs
      have hroom : (s.changeTurn turn.id fun t => { t with continuing := false }).Room turn.id := by
        obtain ⟨x, hx, hasked, hsteps⟩ := hs
        exact ⟨_, turnOf_changeTurn hx (fun _ => rfl), hasked, hsteps⟩
      have hsame : ∀ x : Turn, SameTurn x { x with continuing := false } := fun _ =>
        ⟨rfl, rfl, rfl, rfl, rfl, rfl, Nat.le_refl _, Nat.le_refl _⟩
      exact IsTrans.trans _ _ _ (hR.tweak hsame s) (readTheModel_within hR prompt hroom)
    · exact readTheModel_within hR prompt hs
  rw [run_bind, run_get]
  dsimp only
  split
  · exact prompt_bind hR (trace_does _ (by simp)) (fun _ s hs =>
      prompt_bind hR (contextBlocks_does.more (by simp)) (fun _ s hs => htail _ _ s hs) hs) hs
  · exact prompt_bind hR (contextBlocks_does.more (by simp)) (fun _ s hs => htail _ _ s hs) hs

end

/-- Asking the model. -/
abbrev askActs : List Part := [.note, .record, .bring, .chat, .tweak, .asked, .mail, .read]

theorem Asking.sound (id : Nat) : Asking (H := H) (SoundlyFor id askActs) id where
  preorder := inferInstance
  prompt h := soundlyFor_short (soundly_short (h.more (by simp)) (by simp)) (by simp)
  tweak h := soundlyFor_short (soundly_short (tweak_does id h (by simp)) (by simp)) (by simp)
  post _ h := post_does h (by simp) (by simp)
  asked hroom hs := by
    have hact : Does Act askActs _ _ := Does.single (p := .asked) ⟨id, hs.2, hroom, rfl⟩ (by simp)
    exact ⟨hact, hs.1.does hact (by simp), hs.2⟩
  read prompt s hs := by
    have hact : Does Act askActs s { s with reading := s.reading ++ [⟨id, prompt⟩] } :=
      Does.single (p := .read) ⟨id, hs.2, prompt, rfl⟩ (by simp)
    exact ⟨hact, hs.1.does hact (by simp), hs.2⟩

theorem modelStep_does {id : Nat} {turn : Turn} (hid : turn.id = id) {s : Core H}
    (hs : s.Room id) : SoundlyFor id askActs s ((modelStep turn).run s).2 := by
  subst hid
  exact modelStep_within (Asking.sound turn.id) hs

/-! ### The end of a turn, and whoever waits -/

/-- Moving the queue on. -/
abbrev queueActs : List Part :=
  [.note, .seat, .drop, .lift, .ledger, .chat, .record, .bring, .tweak, .asked, .mail, .read,
    .wait, .begin]

theorem turnOf_mem {c : Core H} {id : Nat} {turn : Turn} (h : c.turnOf id = some turn) :
    turn ∈ c.turns ∧ turn.id = id :=
  ⟨List.mem_of_find?_eq_some h, by simpa using List.find?_some h⟩

theorem turnOf_eq {c : Core H} (hsorted : c.turns.Pairwise fun a b => a.id < b.id)
    {before after : List Turn} {x : Turn} (h : c.turns = before ++ x :: after) :
    c.turnOf x.id = some x := by
  rw [h] at hsorted
  unfold Core.turnOf
  rw [h, List.find?_append, List.find?_eq_none.2, Option.none_or, List.find?_cons_of_pos]
  · simp
  · intro y hy
    have := (List.pairwise_append.1 hsorted).2.2 y hy x List.mem_cons_self
    simpa using this.ne

theorem endWith_does {sched : Program H Unit} (hsched : Within (Soundly queueActs) sched)
    (id : Nat) (how : TurnState) : Within (Soundly queueActs) (endWith sched id how) := by
  unfold endWith
  refine Within.get_bind fun s hs => ?_
  split
  · exact ⟨.refl, hs⟩
  · next turn hturn =>
    have hclose := closeTurn_does hs (turnOf_mem hturn).1 how
    have hmid := hs.does hclose (by simp)
    rw [run_bind]
    obtain ⟨hdoes, hend⟩ := hsched _ hmid
    exact ⟨(hclose.mono (by simp)).trans hdoes, hend⟩

/-- The model was asked for a turn no more often than it was to be. -/
def Core.Due (c : Core H) (id : Nat) : Prop :=
  ∀ turn, c.turnOf id = some turn → asksOf c.deeds id ≤ turn.allowed

/-- It was asked for no turn that has not begun. -/
theorem Core.Sound.due {s t : Core H} (hs : s.Sound) {id : Nat} (hid : id ∉ s.begins)
    (hdeeds : t.deeds = s.deeds) : t.Due id := by
  intro turn _
  have hnone : ∀ d ∈ s.deeds, d.turn ≠ id := fun d hd h => hid (h ▸ hs.did d hd)
  rw [hdeeds, (Core.counts_eq_zero hnone).1]
  exact Nat.zero_le _

/-- What asking the model does where it is to be asked, however a turn is ended. -/
theorem askWith_within {R : Core H → Core H → Prop} [IsPreorder (Core H) R] {id : Nat}
    {sched : Program H Unit} (hnotice : ∀ {level text}, Within R (notice (H := H) level text))
    (hend : ∀ how, Within R (endWith sched id how))
    (hstep : ∀ (turn : Turn) (s : Core H), turn.id = id → s.Room id →
      R s ((modelStep turn).run s).2) {s : Core H} (hs : s.Due id) :
    R s ((askWith sched id).run s).2 := by
  unfold askWith
  rw [run_bind, run_get]
  dsimp only
  split
  · exact Std.Refl.refl s
  · next turn hturn =>
    split
    · exact hend _ s
    · split
      · exact (hnotice.bind fun _ => hend .stopped) s
      · split
        · exact (hnotice.bind fun _ => hend .done) s
        · next hsteps =>
          exact hstep turn s (turnOf_mem hturn).2 ⟨turn, hturn, hs turn hturn, by omega⟩

/-- A turn that has begun makes its run and asks the model. -/
theorem startRun_does {s : Core H} (hs : s.Sound) (turn : Turn) {x : Turn} (hx : x ∈ s.turns)
    (hcaller : x.caller = turn.caller) :
    Does Act [.note, .seat, .ledger] s ((startRun turn).run s).2 := by
  unfold startRun
  rw [run_bind, ← hcaller]
  refine ((activate_does hs hx).mono (by simp)).trans ?_
  refine (?_ : Within (Does Act [.note, .seat, .ledger]) _) _
  refine Within.bind Within.get fun c => (nowMs_does (by simp)).bind fun now => ?_
  refine Within.bind (Within.change_by Part.ledger (by simp) fun s => ?_) fun _ =>
    (emitTask_does.more (by simp))
  exact ⟨some s!"run_{now}",
    { id := s!"run_{now}"
      goal := goalOf (c.messagesOf x.caller.user turn.workspace turn.conversation)
      artifacts := s.mine.task.artifacts }, s.mine.proposals, s.store.ledgers, rfl⟩

/-- Making a run is nothing done for a turn. -/
theorem startRun_deeds {s t : Core H} (h : Does Act [.note, .seat, .ledger] s t) :
    t.deeds = s.deeds := by
  refine h.preserves (I := fun t => t.deeds = s.deeds) (fun p hp u v ha hu => ?_) rfl
  simp only [List.mem_cons, List.not_mem_nil, or_false] at hp
  rcases hp with rfl | rfl | rfl
  · obtain ⟨_, _, _, _, _, _, _, rfl⟩ := ha
    exact hu
  · obtain ⟨_, _, _, _, rfl⟩ := ha
    exact hu
  · obtain ⟨_, _, _, _, rfl⟩ := ha
    exact hu

/-- A turn of the queue goes to another state. -/
theorem setState_run {s : Core H} (hs : s.Sound) {before after : List Turn} {x : Turn}
    (h : s.turns = before ++ x :: after) {state : TurnState} (hne : x.state ≠ state) :
    ((setState x.id state).run s).2 =
      (s.changeTurn x.id fun t => { t with state := state }).sent (.user s.active.user)
        (.turnChanged x.conversation state) := by
  unfold setState
  rw [run_bind, run_get]
  dsimp only
  rw [turnOf_eq hs.sorted h]
  dsimp only
  rw [if_pos hne]
  rfl

/-- A turn let into a slot begins. -/
theorem beginWith_run {s : Core H} (hs : s.Sound) {before after : List Turn} {x : Turn}
    (h : s.turns = before ++ x :: after) (hne : x.state ≠ .writing) (sched : Program H Unit) :
    ((beginWith sched x.id).run ((setState x.id .writing).run s).2).2 =
      ((do startRun { x with state := .writing }; askWith sched x.id : Program H Unit).run
        { s.changeTurn x.id fun t => { t with state := .writing, begun := true } with
          begins := s.begins ++ [x.id]
          events := (s.sent (.user s.active.user) (.turnChanged x.conversation .writing)).events
          }).2 := by
  have hput := hs.changeTurn_turns h fun t => { t with state := .writing }
  have hfound : ((s.changeTurn x.id fun t => { t with state := .writing }).sent
      (.user s.active.user) (.turnChanged x.conversation .writing)).turnOf x.id =
        some { x with state := .writing } :=
    turnOf_eq (x := { x with state := .writing }) (hput ▸ hs.sorted_put h rfl) hput
  rw [setState_run hs h hne]
  unfold beginWith
  rw [run_bind, run_get]
  dsimp only
  rw [hfound]
  dsimp only
  rw [run_bind, run_modify]
  dsimp only
  have hstate : ((s.changeTurn x.id fun t => { t with state := .writing }).sent
      (.user s.active.user) (.turnChanged x.conversation .writing)).leaveQueue x.id =
      { s.changeTurn x.id fun t => { t with state := .writing, begun := true } with
        begins := s.begins ++ [x.id]
        events := (s.sent (.user s.active.user) (.turnChanged x.conversation .writing)).events } := by
    unfold Core.leaveQueue Core.sent Core.changeTurn
    dsimp only
    rw [List.map_map]
    congr 1
    refine List.map_congr_left fun y _ => ?_
    by_cases hy : y.id = x.id
    · simp [hy]
    · simp [hy]
  rw [hstate]

/-- One move: the person of the turn that moves next is seated, and the turn goes where it goes,
to wait elsewhere in the line or to a slot. There it begins, and asks the model. -/
theorem scheduleFor_move {n : Nat} (ih : Within (Soundly queueActs) (scheduleFor (H := H) n))
    {s : Core H} (hs : s.Sound) {turn : Turn} {state : TurnState}
    (hnext : s.nextMove = some (turn, state)) :
    ∃ st u v, Act .seat s (s.seated turn.caller st) ∧
      (Act .wait (s.seated turn.caller st) u ∨ Act .begin (s.seated turn.caller st) u) ∧
      Does Act queueActs u v ∧ v.Sound ∧
      ((scheduleFor (n + 1)).run s).2 = ((scheduleFor n).run v).2 := by
  obtain ⟨before, after, hturns, hwaiting, -, hne, -⟩ := Core.Sound.nextMove_spec hnext
  have hmem : turn ∈ s.turns := by simp [hturns]
  obtain ⟨st, hst, hrun⟩ := activate_seats hs hmem
  have hseat : Act .seat s (s.seated turn.caller st) := ⟨turn, hmem, st, hst, rfl⟩
  have hs₁ := hs.act (by simp) hseat
  have hnext₁ : (s.seated turn.caller st).nextMove = some (turn, state) :=
    (Core.nextMove_congr (c := s) (d := s.seated turn.caller st) rfl rfl).trans hnext
  refine ⟨st, ?_⟩
  have hunfold : ((scheduleFor (n + 1)).run s).2 = ((scheduleFor n).run
      ((do
        setState turn.id state
        if state = .writing then beginWith (scheduleFor n) turn.id : Program H Unit).run
        (s.seated turn.caller st)).2).2 := by
    conv_lhs => unfold scheduleFor
    rw [run_bind, run_get]
    dsimp only
    rw [hnext]
    dsimp only
    rw [run_bind, hrun]
    split <;> rfl
  by_cases hwriting : state = .writing
  · -- it goes to a slot
    subst hwriting
    rw [if_pos rfl, run_bind, beginWith_run hs₁ hturns hne.symm] at hunfold
    have hbegin : Act .begin (s.seated turn.caller st)
        { (s.seated turn.caller st).changeTurn turn.id fun t =>
            { t with state := .writing, begun := true } with
          begins := s.begins ++ [turn.id]
          events := ((s.seated turn.caller st).sent (.user turn.caller.user)
            (.turnChanged turn.conversation .writing)).events } := by
      refine ⟨turn, _, hnext₁, ?_, rfl⟩
      intro e he
      rw [List.mem_singleton.1 he]
      rfl
    have hs₂ := hs₁.act (by simp) hbegin
    have hput := hs₁.changeTurn_turns hturns fun t => { t with state := .writing, begun := true }
    have hrun₂ := startRun_does hs₂ { turn with state := .writing }
      (x := { turn with state := .writing, begun := true }) (by
        simp only [hput]
        simp) rfl
    have hs₃ := hs₂.does hrun₂ (by simp)
    have hmem₃ := begins_subset_of_does hrun₂ (by simp) (a := turn.id) (by simp)
    -- nothing was done for it before it began
    have hunbegun : turn.id ∉ (s.seated turn.caller st).begins := by
      rw [← hs₁.begun turn hmem, (hs₁.waits turn hmem).1 hwaiting]
      simp
    have hask : ∀ {s : Core H}, s.Due turn.id →
        SoundlyFor turn.id queueActs s ((askWith (scheduleFor n) turn.id).run s).2 :=
      askWith_within (soundlyFor_short (soundly_short (notice_does _ _ (by simp)) (by simp))
        (by simp))
        (fun how => soundlyFor_short (endWith_does ih turn.id how) (by simp))
        fun _ _ hid hroom hs => by
          obtain ⟨hdoes, hend⟩ := modelStep_does hid hroom hs
          exact ⟨hdoes.mono (by simp), hend⟩
    obtain ⟨hdoes, hs₄, -⟩ := hask
      (hs₁.due hunbegun (by rw [startRun_deeds hrun₂]; rfl)) ⟨hs₃, hmem₃⟩
    exact ⟨_, _, hseat, .inr hbegin, (hrun₂.mono (by simp)).trans hdoes, hs₄, hunfold⟩
  · -- it goes elsewhere in the line
    rw [if_neg hwriting, run_bind, setState_run hs₁ hturns hne.symm] at hunfold
    have hmove : Act .wait (s.seated turn.caller st)
        ((s.seated turn.caller st).changeTurn turn.id fun t => { t with state := state }) :=
      ⟨turn, state, hnext₁, hwriting, rfl⟩
    have hs₂ := hs₁.act (by simp) hmove
    have hemit : Within (Does Act queueActs) (emitTo (H := H) (.user turn.caller.user)
        (.turnChanged turn.conversation state)) := emitTo_does rfl (by simp)
    exact ⟨_, _, hseat, .inl hmove, hemit _, hs₂.does (hemit _) (by simp), hunfold⟩

theorem scheduleFor_does (n : Nat) : Within (Soundly queueActs) (scheduleFor (H := H) n) := by
  induction n with
  | zero => exact Within.pure _
  | succ n ih =>
    intro s hs
    cases hnext : s.nextMove with
    | none =>
      unfold scheduleFor
      rw [run_bind, run_get]
      dsimp only
      rw [hnext]
      exact ⟨.refl, hs⟩
    | some move =>
      obtain ⟨st, u, v, hseat, hmove, hdoes, hv, hrun⟩ := scheduleFor_move ih hs hnext
      rw [hrun]
      obtain ⟨hrest, hend⟩ := ih v hv
      have hsu : Does Act queueActs s u := by
        refine (Does.single hseat (by simp)).trans ?_
        rcases hmove with hwait | hbegin
        · exact Does.single hwait (by simp)
        · exact Does.single hbegin (by simp)
      exact ⟨hsu.trans (hdoes.trans hrest), hend⟩

/-- The end of a turn, act by act. -/
theorem endTurn_acts (id : Nat) (how : TurnState) :
    Within (Soundly queueActs) (endTurn (H := H) id how) :=
  endWith_does (Within.get.bind fun _ => scheduleFor_does _) id how

/-! ### Every act keeps the queue sound -/

theorem Act.finish_acts {s t : Core H} (h : Act .finish s t) (hs : s.Sound) :
    Does Act queueActs s t ∧ t.Sound := by
  obtain ⟨id, how, rfl⟩ := h
  exact endTurn_acts id how s hs

theorem Core.Sound.step {p : Part} {s t : Core H} (hs : s.Sound) (h : Act p s t) : t.Sound := by
  by_cases hp : p = .finish
  · subst hp
    exact (h.finish_acts hs).2
  · exact hs.act hp h

theorem Core.Sound.run {s t : Core H} (hs : s.Sound) (h : Does Act ps s t) : t.Sound :=
  h.preserves (fun _ _ _ _ hact hs => hs.step hact) hs

theorem Core.Sound.begins_subset {s t : Core H} (hs : s.Sound) (h : Does Act ps s t) :
    s.begins ⊆ t.begins := by
  refine (h.preserves (I := fun t => t.Sound ∧ s.begins ⊆ t.begins) ?_ ⟨hs, List.Subset.refl _⟩).2
  rintro p - u v hact ⟨hu, hsub⟩
  refine ⟨hu.step hact, List.Subset.trans hsub ?_⟩
  by_cases hp : p = .finish
  · subst hp
    exact begins_subset_of_does (hact.finish_acts hu).1 (by simp)
  · exact hact.begins_subset hp

theorem soundly (h : Within (Does Act ps) m) : Within (Soundly ps) m :=
  h.keeping fun _ _ hst hs => hs.run hst

theorem soundlyFor {id : Nat} (h : Within (Soundly ps) m) : Within (SoundlyFor id ps) m := by
  intro s hs
  obtain ⟨hdoes, hend⟩ := h s hs.1
  exact ⟨hdoes, hend, hs.1.begins_subset hdoes hs.2⟩

/-! ### A step of a turn -/

theorem endTurn_does (id : Nat) (how : TurnState) (hps : Part.finish ∈ ps) :
    Within (Does Act ps) (endTurn (H := H) id how) :=
  fun _ => Does.single (p := .finish) ⟨id, how, rfl⟩ hps

theorem askTheModel_does (id : Nat) {s : Core H} (hs : s.Due id) :
    SoundlyFor id (.finish :: askActs) s ((askTheModel id).run s).2 :=
  askWith_within (soundlyFor (soundly (notice_does _ _ (by simp))))
    (fun how => soundlyFor (soundly (endTurn_does id how (by simp))))
    (fun _ _ hid hroom hs => by
      obtain ⟨hdoes, hend⟩ := modelStep_does hid hroom hs
      exact ⟨hdoes.mono (by simp), hend⟩) hs

/-- A relation that allows what a turn does when the model's reply is no call. -/
structure Speaking (R : Core H → Core H → Prop) (id : Nat) : Prop extends Asking R id where
  seat : ∀ {s : Core H} {turn : Turn} {m : Program H Unit}, s.turnOf id = some turn →
    (∀ t : Core H, t.turnOf id = some turn → R t (m.run t).2) →
      R s (m.run ((activate turn.caller).run s).2).2
  finish : ∀ how, Within R (endTurn id how)
  /-- A turn that got on, and the model asked again. -/
  again : ∀ {s : Core H} {turn : Turn} {change : Turn → Turn}, s.turnOf id = some turn →
    (∀ x, SameTurn x (change x)) → turn.allowed + 1 ≤ (change turn).allowed →
      R s ((do
        modify fun c => c.changeTurn id change
        askTheModel id : Program H Unit).run s).2

/-- A relation that allows what a turn does when the model's reply comes back. -/
structure Replying (R : Core H → Core H → Prop) (id : Nat) : Prop extends Speaking R id where
  propose : ∀ calls : List ProposedCall, Within R (modify fun c =>
    (c.changeTurn id fun t => { t with calls := calls }).did (.proposed id calls.length) :
      Program H Unit)

section

variable {R : Core H → Core H → Prop} {id : Nat}

theorem sayRest_does (conversation : ConversationId) (rest : String)
    (hps : Part.note ∈ ps) :
    Within (Does Act ps) (sayRest (H := H) conversation rest) := by
  unfold sayRest
  split
  · exact emit_does rfl hps
  · exact Within.pure _

theorem keep_within (hR : Speaking R id) (a : Answer) (how : TurnState) :
    Within R (do keep id a; endTurn id how : Program H Unit) :=
  have := hR.preorder
  (hR.prompt ((keep_does _ _).more (by simp))).bind fun _ => hR.finish _

theorem takeCalls_within (hR : Replying R id) (calls : List ProposedCall) :
    Within R (takeCalls (H := H) id calls) :=
  have := hR.preorder
  Within.bind (hR.propose calls) fun _ => hR.post _ rfl

theorem attempted_within {turn : Turn} (hR : Speaking R turn.id) (step : StepEnd)
    (block : CallBlock) (offered : Bool) {s : Core H} (hs : s.turnOf turn.id = some turn) :
    R s ((attempted turn step block offered).run s).2 := by
  have := hR.preorder
  unfold attempted
  split
  · next hrefused =>
    dsimp only
    refine hR.again hs (fun x => ⟨rfl, rfl, rfl, rfl, rfl, rfl, ?_, Nat.le_refl _⟩) ?_
    · unfold Turn.allowed
      dsimp only [Option.isSome_some]
      split <;> simp
    · simp [Turn.allowed, hrefused]
  · dsimp only
    exact ((hR.prompt (sayRest_does _ _ (by simp))).bind fun _ => keep_within hR _ _) s

/-- An answer in words: what of it the person has not seen is shown, and the turn ends. -/
theorem words_within {turn : Turn} (hR : Speaking R turn.id) (step : StepEnd)
    (reply : ChatReply) : Within R (do
      match afterPrefix step.shown reply.text with
      | some rest => sayRest turn.conversation rest
      | none => pure ()
      keep turn.id ⟨reply.text, step.thought, reply.atLimit, cutAt step reply⟩
      endTurn turn.id .done : Program H Unit) := by
  have := hR.preorder
  split
  · exact (hR.prompt (sayRest_does _ _ (by simp))).bind fun _ => keep_within hR _ _
  · exact keep_within hR _ _

theorem answered_within {turn : Turn} (hR : Replying R turn.id) (step : StepEnd)
    (reply : ChatReply) {s : Core H} (hs : s.turnOf turn.id = some turn) :
    R s ((answered turn step reply).run s).2 := by
  have := hR.preorder
  unfold answered
  split
  · rw [run_bind, run_get]
    dsimp only
    split
    · exact takeCalls_within hR _ s
    · exact attempted_within hR.toSpeaking _ _ _ hs
  · exact words_within hR.toSpeaking step reply s

theorem replied_within (hR : Replying R id) (step : StepEnd) :
    Within R (replied (H := H) id step) := by
  have := hR.preorder
  unfold replied
  refine Within.get_bind fun s => ?_
  split
  · exact Std.Refl.refl s
  · next turn hturn =>
    obtain ⟨-, rfl⟩ := turnOf_mem hturn
    rw [run_bind]
    refine hR.seat hturn fun t ht => ?_
    split
    · exact keep_within hR.toSpeaking _ _ t
    · split
      · next why _ => cases why <;> exact keep_within hR.toSpeaking _ _ t
      · split
        · exact answered_within hR _ _ ht
        · exact takeCalls_within hR _ t

end

/-- A model's reply come back to its turn, no call of its taken. -/
abbrev spokenActs : List Part :=
  [.note, .seat, .chat, .record, .bring, .tweak, .asked, .mail, .read, .finish]

/-- A model's reply come back to its turn. -/
abbrev replyActs : List Part :=
  [.note, .seat, .chat, .record, .bring, .tweak, .propose, .asked, .mail, .read, .finish]

/-- What a call and its telling do. -/
abbrev workActs : List Part :=
  [.note, .chat, .desk, .ledger, .ask, .record, .bring, .write, .rewrite, .patch]

/-- A relation that allows what a step of a turn does, pausing apart. -/
structure Working (R : Core H → Core H → Prop) (id : Nat) : Prop extends Replying R id where
  work : ∀ {α : Type} {m : Program H α}, Within (Does Act workActs) m → Within R m
  atWork : ∀ work : Option Nat, (∀ turn ∈ work, turn = id) →
    Within R (modify fun c => { c with turnAtWork := work } : Program H Unit)
  call : ∀ {s : Core H} {turn : Turn} {call : ProposedCall} {rest : List ProposedCall},
    s.turnOf id = some turn → turn.calls = call :: rest →
      R s ((s.changeTurn id fun t => { t with calls := rest }).did (.called id))

section

variable {R : Core H → Core H → Prop} {id : Nat}

theorem startCall_within {turn : Turn} (hR : Working R turn.id) {call : ProposedCall}
    {rest : List ProposedCall} {s : Core H} (hs : s.turnOf turn.id = some turn)
    (hcalls : turn.calls = call :: rest) : R s ((startCall turn call rest).run s).2 := by
  have := hR.preorder
  exact Within.change_bind (hR.call hs hcalls) fun _ =>
    (hR.work (emit_does rfl (by simp))).bind fun _ => hR.atWork _ (by simp)

/-- A call made, where the relation allows the turn to pause. -/
theorem makeCall_within {turn : Turn} (hR : Working R turn.id)
    (hpause : Within R (setState turn.id .awaitsApproval)) {call : ProposedCall}
    {rest : List ProposedCall} {s : Core H} (hs : s.turnOf turn.id = some turn)
    (hcalls : turn.calls = call :: rest) : R s ((makeCall turn call rest).run s).2 := by
  have := hR.preorder
  unfold makeCall
  rw [run_bind]
  refine IsTrans.trans _ _ _ (startCall_within hR hs hcalls) ((?_ : Within R _) _)
  refine (hR.work ((callTool_does _ _ _).more (by simp))).bind fun outcome => ?_
  refine Within.bind (hR.atWork _ (by simp)) fun _ => ?_
  refine (hR.work ((taskProgress_does _ _).more (by simp))).bind fun _ =>
    (hR.work (emit_does rfl (by simp))).bind fun _ => ?_
  refine (hR.work ((recordCall_does _ _ _ _).more (by simp))).bind fun _ => ?_
  split
  · exact hpause
  · exact hR.post _ rfl

/-- A turn's next step, where the relation allows its call. -/
theorem goOn_within (hR : Working R id)
    (hcall : ∀ (s : Core H) turn call rest, s.turnOf id = some turn → turn.calls = call :: rest →
      turn.stop = false →
      R s ((makeCall turn call rest).run ((activate turn.caller).run s).2).2) :
    Within R (goOn (H := H) id) := by
  have := hR.preorder
  unfold goOn
  refine Within.get_bind fun s => ?_
  split
  · exact Std.Refl.refl s
  · next turn hturn =>
    obtain ⟨-, rfl⟩ := turnOf_mem hturn
    rw [run_bind]
    split
    · exact hR.seat hturn fun t _ => hR.finish _ t
    · next hstop =>
      rw [run_bind, run_get]
      dsimp only
      split
      · exact hR.seat hturn fun t _ =>
          ((hR.work (notice_does _ _ (by simp))).bind fun _ => hR.finish .stopped) t
      · split
        · refine hR.seat hturn fun t ht => hR.again ht
            (fun x => ⟨rfl, rfl, rfl, rfl, rfl, rfl, ?_, Nat.le_refl _⟩) ?_
          · unfold Turn.allowed
            dsimp only
            omega
          · unfold Turn.allowed
            dsimp only
            omega
        · next call rest hcalls =>
          exact hcall s turn call rest hturn hcalls (by simpa using hstop)

/-- A turn's work come back, where the relation allows it to pause. -/
theorem handleInternal_within {message : Internal} (hR : Working R message.turn)
    (hpause : Within R (setState message.turn .awaitsApproval)) :
    Within R (handleInternal (H := H) message) := by
  cases message with
  | replied id step => exact replied_within hR.toReplying step
  | goOn id =>
    refine goOn_within hR fun s turn call rest hturn hcalls _ => hR.seat hturn fun t ht => ?_
    obtain ⟨-, rfl⟩ := turnOf_mem hturn
    exact makeCall_within hR hpause ht hcalls

end

/-- What a turn's next step does. -/
abbrev turnActs : List Part :=
  [.note, .seat, .chat, .desk, .ledger, .ask, .record, .bring, .write, .rewrite, .patch, .tweak,
    .propose, .call, .pause, .mail, .asked, .read, .atWork, .finish]

/-- From a state in which the turn has begun, its person is seated. -/
theorem activate_bind {id : Nat} {ps : List Part} {s : Core H} {turn : Turn}
    (hturn : s.turnOf id = some turn) {m : Program H α}
    (hm : ∀ t : Core H, t.turnOf id = some turn → SoundlyFor id ps t (m.run t).2)
    (hps : Part.seat ∈ ps) :
    SoundlyFor id ps s (((do activate turn.caller; m) : Program H α).run s).2 := by
  intro hs
  have hmem := (turnOf_mem hturn).1
  obtain ⟨st, _, hrun⟩ := activate_seats hs.1 hmem
  have hseat : Does Act ps s _ := (activate_does hs.1 hmem).mono (by simpa using hps)
  obtain ⟨hdoes, hend⟩ := hm _ (by rw [hrun]; exact hturn)
    ⟨hs.1.run hseat, hs.1.begins_subset hseat hs.2⟩
  exact ⟨hseat.trans hdoes, hend⟩

theorem Speaking.sound (id : Nat) (hps : spokenActs ⊆ ps) :
    Speaking (H := H) (SoundlyFor id ps) id where
  toAsking :=
    { preorder := inferInstance
      prompt := fun h => soundlyFor (soundly (h.more (List.Subset.trans (by simp) hps)))
      tweak := fun h => soundlyFor (soundly (tweak_does id h (hps (by simp))))
      post := fun message h s hs => by
        have hact : Does Act ps s ((post message).run s).2 :=
          Does.single (p := .mail) ⟨message, h ▸ hs.2, rfl⟩ (hps (by simp))
        exact ⟨hact, hs.1.run hact, hs.1.begins_subset hact hs.2⟩
      asked := fun hroom hs => by
        have hact : Does Act ps _ _ :=
          Does.single (p := .asked) ⟨id, hs.2, hroom, rfl⟩ (hps (by simp))
        exact ⟨hact, hs.1.run hact, hs.2⟩
      read := fun prompt s hs => by
        have hact : Does Act ps s { s with reading := s.reading ++ [⟨id, prompt⟩] } :=
          Does.single (p := .read) ⟨id, hs.2, prompt, rfl⟩ (hps (by simp))
        exact ⟨hact, hs.1.run hact, hs.2⟩ }
  seat hturn hm := activate_bind hturn hm (hps (by simp))
  finish how := soundlyFor (soundly (endTurn_does id how (hps (by simp))))
  again := by
    intro s turn change hturn hchange hallowed hs
    have htweak : Does Act ps s (s.changeTurn id change) :=
      Does.single (p := .tweak) ⟨id, change, hchange, rfl⟩ (hps (by simp))
    have hdue : (s.changeTurn id change).Due id := by
      intro x hx
      rw [turnOf_changeTurn hturn fun x => (hchange x).id, Option.some.injEq] at hx
      subst hx
      obtain ⟨hmem, hid⟩ := turnOf_mem hturn
      have hasked := hs.1.counted.asked turn hmem
      rw [hid] at hasked
      exact hasked.trans hallowed
    obtain ⟨hdoes, hend⟩ := askTheModel_does id hdue ⟨hs.1.run htweak, hs.2⟩
    exact ⟨htweak.trans (hdoes.mono (List.Subset.trans (by simp) hps)), hend⟩

theorem Replying.sound (id : Nat) (hps : replyActs ⊆ ps) :
    Replying (H := H) (SoundlyFor id ps) id where
  toSpeaking := Speaking.sound id (List.Subset.trans (by simp) hps)
  propose calls s hs := by
    have hact : Does Act ps s _ := Does.single (p := .propose) ⟨id, hs.2, calls, rfl⟩ (hps (by simp))
    exact ⟨hact, hs.1.run hact, hs.2⟩

theorem Working.sound (id : Nat) : Working (H := H) (SoundlyFor id turnActs) id where
  toReplying := Replying.sound id (by simp)
  work h := soundlyFor (soundly (h.more (by simp)))
  atWork work hwork s hs := by
    have hact : Does Act turnActs s { s with turnAtWork := work } :=
      Does.single (p := .atWork) ⟨work, fun turn h => hwork turn h ▸ hs.2, rfl⟩ (by simp)
    exact ⟨hact, hs.1.run hact, hs.2⟩
  call hturn hcalls hs := by
    have hact : Does Act turnActs _ _ :=
      Does.single (p := .call) ⟨id, hs.2, _, _, _, hturn, hcalls, rfl⟩ (by simp)
    exact ⟨hact, hs.1.run hact, hs.2⟩

theorem replied_does (id : Nat) (step : StepEnd) :
    Within (SoundlyFor id replyActs) (replied (H := H) id step) :=
  replied_within (Replying.sound id (by simp)) step

theorem setState_pauses (id : Nat) :
    Within (SoundlyFor id turnActs) (setState (H := H) id .awaitsApproval) := by
  unfold setState
  refine Within.get_bind fun s hs => ?_
  split
  · exact ⟨.refl, hs⟩
  · split
    · have hact : Does Act turnActs s
          (s.changeTurn id fun t => { t with state := .awaitsApproval }) :=
        Does.single (p := .pause) ⟨id, hs.2, rfl⟩ (by simp)
      have hmid := hs.1.run hact
      obtain ⟨hnote, hend⟩ := (soundly (emit_does rfl (by simp)) : Within (Soundly turnActs)
        (emit (H := H) (.turnChanged _ .awaitsApproval))) _ hmid
      exact ⟨hact.trans hnote, hend, hmid.begins_subset hnote hs.2⟩
    · exact ⟨.refl, hs⟩

theorem handleInternal_does (message : Internal) :
    Within (SoundlyFor message.turn turnActs) (handleInternal (H := H) message) :=
  handleInternal_within (Working.sound _) (setState_pauses _)

/-! ### What is left to do inside a request -/

/-- What is done of what was left inside a request. -/
abbrev drainActs : List Part := .take :: turnActs

theorem drainFor_does (n : Nat) : Within (Soundly drainActs) (drainFor (H := H) n) := by
  induction n with
  | zero => exact Within.pure _
  | succ n ih =>
    unfold drainFor
    refine Within.get_bind fun s hs => ?_
    split
    · exact ⟨.refl, hs⟩
    · next message rest hin =>
      rw [run_bind, run_modify]
      dsimp only
      have htake : Does Act drainActs s { s with inline := rest } :=
        Does.single (p := .take) ⟨message, rest, hin, rfl⟩ (by simp)
      have hmem : message.turn ∈ s.begins := hs.inline message (hin ▸ List.mem_cons_self)
      obtain ⟨hdo, hmid, -⟩ := handleInternal_does message { s with inline := rest }
        ⟨hs.run htake, hmem⟩
      rw [run_bind]
      obtain ⟨hrest, hend⟩ := ih _ hmid
      exact ⟨htake.trans ((hdo.mono (by simp)).trans hrest), hend⟩

namespace Core

/-- Nothing is left to do inside a request, and nothing is to be. -/
def Idle (c : Core H) : Prop :=
  c.inline = [] ∧ c.runInline = false

end Core

theorem Act.idle_short {p : Part} {s t : Core H} (hp : p ≠ .inlining) (hp' : p ≠ .finish)
    (h : Act p s t) (hs : s.Idle) : t.Idle := by
  by_cases hstill : p.still = true
  · have hflow := (h.still hstill).1
    simp only [Core.flow, Prod.mk.injEq] at hflow
    exact ⟨hflow.2.2.2.1.trans hs.1, hflow.2.2.2.2.2.2.2.1.trans hs.2⟩
  cases p <;> first | exact absurd rfl hstill | skip
  case ask => obtain ⟨_, _, _, rfl⟩ := h; exact hs
  case lift => obtain ⟨_, rfl⟩ := h; exact hs
  case seat => obtain ⟨_, _, _, _, rfl⟩ := h; exact hs
  case enter =>
    obtain ⟨caller, rfl⟩ := h
    rcases Core.activate_run caller s with ⟨_, _, hrun⟩ | ⟨_, _, _, _, _, _, hrun⟩
    · rw [hrun]
      exact hs
    · obtain ⟨_, _, hhomed, -⟩ := s.homed_eq caller.user
      rw [hrun, hhomed]
      exact hs
  case push => obtain ⟨_, _, _, _, _, rfl⟩ := h; exact hs
  case start => obtain ⟨_, _, _, _, _, rfl⟩ := h; exact hs
  case tweak => obtain ⟨_, _, _, rfl⟩ := h; exact hs
  case propose => obtain ⟨_, _, _, rfl⟩ := h; exact hs
  case call => obtain ⟨_, _, _, _, _, _, _, rfl⟩ := h; exact hs
  case pause => obtain ⟨_, _, rfl⟩ := h; exact hs
  case resume => obtain ⟨_, _, rfl⟩ := h; exact hs
  case drop => obtain ⟨_, _, _, _, rfl⟩ := h; exact hs
  case wait => obtain ⟨_, _, _, _, rfl⟩ := h; exact hs
  case begin => obtain ⟨_, _, _, _, rfl⟩ := h; exact hs
  case finish => exact absurd rfl hp'
  case mail =>
    obtain ⟨_, _, rfl⟩ := h
    unfold post
    rw [run_modify]
    dsimp only
    rw [if_neg (by simp [hs.2])]
    exact hs
  case asked => obtain ⟨_, _, _, rfl⟩ := h; exact hs
  case read => obtain ⟨_, _, _, rfl⟩ := h; exact hs
  case take => obtain ⟨_, _, hin, rfl⟩ := h; rw [hs.1] at hin; cases hin
  case inlining => exact absurd rfl hp
  case atWork => obtain ⟨_, _, rfl⟩ := h; exact hs

/-- Outside evals, a request leaves nothing to do inside it. -/
theorem Act.idle {p : Part} {s t : Core H} (hp : p ≠ .inlining) (h : Act p s t) (hs : s.Sound)
    (hidle : s.Idle) : t.Idle := by
  by_cases hfinish : p = .finish
  · subst hfinish
    refine (h.finish_acts hs).1.preserves (I := Core.Idle) (fun q hq u v hact hu => ?_) hidle
    exact hact.idle_short (fun h => by subst h; simp at hq) (fun h => by subst h; simp at hq) hu
  · exact h.idle_short hp hfinish hidle

theorem Core.Idle.run {s t : Core H} (hidle : s.Idle) (hs : s.Sound) (h : Does Act ps s t)
    (hps : Part.inlining ∉ ps := by simp) : t.Idle := by
  refine (h.preserves (I := fun t => t.Sound ∧ t.Idle) ?_ ⟨hs, hidle⟩).2
  rintro p hp u v hact ⟨hu, hidle⟩
  exact ⟨hu.step hact, hact.idle (fun h => hps (h ▸ hp)) hu hidle⟩

/-- The same, while nothing is left to do inside a request. -/
abbrev Idly (ps : List Part) : Core H → Core H → Prop :=
  Keeping (fun c => c.Sound ∧ c.Idle) (Does Act ps)

theorem idly (h : Within (Soundly ps) m) (hps : Part.inlining ∉ ps) :
    Within (Idly ps) m := by
  intro s hs
  obtain ⟨hdoes, hend⟩ := h s hs.1
  exact ⟨hdoes, hend, hs.2.run hs.1 hdoes hps⟩

theorem drain_run {s : Core H} (hs : s.Idle) : (drain.run s).2 = s := by
  unfold drain
  cases H.patience with
  | zero => rfl
  | succ n =>
    unfold drainFor
    rw [run_bind, run_get]
    dsimp only
    rw [hs.1]
    rfl

theorem drain_idle : Within (Idly ps) (drain (H := H)) := by
  intro s hs
  rw [drain_run hs.2]
  exact ⟨.refl, hs⟩

end LocalSpace
