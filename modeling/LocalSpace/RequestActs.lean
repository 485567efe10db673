import LocalSpace.TurnActs

/-!
# By which acts requests go

For each request the kinds of acts its handling may go by, `requestActs`, and that it goes by
no others (`handleAs_does`); an eval run, which runs turns inside itself, apart. After them
the messages that are no requests, and the start.
-/

namespace LocalSpace

open Library

variable {H : Host} {ps qs : List Part} {α : Type} {m : Program H α}

/-! ### Answers asked for and stopped -/

/-- A turn let into the queue, and begun where it goes to a slot. -/
abbrev queueInActs : List Part :=
  [.push, .start, .note, .seat, .ledger, .record, .bring, .chat, .tweak, .asked, .mail, .read,
    .finish]

/-- A turn that comes to a slot begins. -/
theorem queue_starts {s : Core H} (hs : s.Sound) (conversation : ConversationId)
    (continuing : Bool)
    (hw : s.whereItGoes s.turns (s.newTurn conversation continuing) = .writing) :
    ((queue conversation continuing).run s).2 =
      ((do startRun { s.newTurn conversation continuing with state := .writing }
           askTheModel s.nextTurn : Program H Unit).run
        { s.queued { s.newTurn conversation continuing with state := .writing, begun := true } with
          begins := s.begins ++ [s.nextTurn]
          events := (s.sent (.user s.active.user) (.turnChanged conversation .writing)).events
          }).2 := by
  let y : Turn := { s.newTurn conversation continuing with state := .writing }
  have hothers : ∀ x ∈ s.turns, x.id ≠ s.nextTurn := fun x hx => (hs.young x hx).ne
  have hfound : ((s.queued y).sent (.user s.active.user)
      (.turnChanged conversation .writing)).turnOf s.nextTurn = some y := by
    unfold Core.turnOf Core.queued
    dsimp only [Core.sent]
    rw [List.find?_append, List.find?_eq_none.2 (by simpa using hothers), Option.none_or,
      List.find?_cons_of_pos (by simp [y, Core.newTurn])]
  have hstate : ((s.queued y).sent (.user s.active.user)
      (.turnChanged conversation .writing)).leaveQueue s.nextTurn =
      { s.queued { y with begun := true } with
        begins := s.begins ++ [s.nextTurn]
        events := (s.sent (.user s.active.user) (.turnChanged conversation .writing)).events } := by
    unfold Core.leaveQueue Core.queued Core.sent Core.changeTurn
    dsimp only
    congr 1
    rw [List.map_append, Core.Sound.map_others _ hothers]
    simp [y, Core.newTurn]
  unfold queue
  rw [run_bind, run_get]
  dsimp only
  rw [hw, run_bind, run_modify, run_bind, if_pos rfl]
  unfold beginTurn beginWith
  rw [run_bind, run_get]
  dsimp only
  have hsent : ((emit (.turnChanged conversation .writing)).run (s.queued y)).2 =
    (s.queued y).sent (.user s.active.user) (.turnChanged conversation .writing) := rfl
  rw [hsent]
  have hid : (s.newTurn conversation continuing).id = s.nextTurn := rfl
  rw [hid, hfound]
  dsimp only
  rw [run_bind, run_modify]
  dsimp only
  rw [show y.id = s.nextTurn from rfl, hstate]
  rfl

theorem queue_does (conversation : ConversationId) (continuing : Bool) :
    Within (Soundly queueInActs) (queue (H := H) conversation continuing) := by
  intro s hs
  by_cases hw : s.whereItGoes s.turns (s.newTurn conversation continuing) = .writing
  · rw [queue_starts hs conversation continuing hw, run_bind]
    have hstart : Does Act queueInActs s
        { s.queued { s.newTurn conversation continuing with state := .writing, begun := true } with
          begins := s.begins ++ [s.nextTurn]
          events := (s.sent (.user s.active.user) (.turnChanged conversation .writing)).events } := by
      refine Does.single (p := .start) ⟨conversation, continuing, _, hw, ?_, rfl⟩ (by simp)
      intro e he
      rw [List.mem_singleton.1 he]
      rfl
    have hs₁ := hs.run hstart
    have hrun := startRun_does hs₁ { s.newTurn conversation continuing with state := .writing }
      (x := { s.newTurn conversation continuing with state := .writing, begun := true })
      (by simp [Core.queued]) rfl
    have hunbegun : s.nextTurn ∉ s.begins := fun h => absurd (hs.past _ h) (Nat.lt_irrefl _)
    obtain ⟨hask, hend, -⟩ := askTheModel_does s.nextTurn
      (hs.due hunbegun (by rw [startRun_deeds hrun]; rfl))
      ⟨hs₁.run hrun, hs₁.begins_subset hrun (by simp)⟩
    exact ⟨hstart.trans ((hrun.mono (by simp)).trans (hask.mono (by simp))), hend⟩
  · unfold queue
    rw [run_bind, run_get]
    dsimp only
    rw [run_bind, run_modify, run_bind, if_neg hw]
    have hpush : Does Act queueInActs s (s.queued { s.newTurn conversation continuing with
        state := s.whereItGoes s.turns (s.newTurn conversation continuing) }) :=
      Does.single (p := .push) ⟨conversation, continuing, _, rfl, hw, rfl⟩ (by simp)
    have hemit : Within (Soundly queueInActs) (emit (H := H) (.turnChanged conversation
        (s.whereItGoes s.turns (s.newTurn conversation continuing)))) :=
      soundly (emit_does rfl (by simp))
    obtain ⟨hnote, hend⟩ := hemit _ (hs.run hpush)
    exact ⟨hpush.trans hnote, hend⟩

/-- A message or a carrying on. -/
abbrev sendActs : List Part := queueInActs

theorem takeAttachments_does (conversation : ConversationId) (attachments : List String)
    (hps : Part.note ∈ ps) :
    Within (Does Act ps) (takeAttachments (H := H) conversation attachments) := by
  unfold takeAttachments
  split
  · exact Within.pure _
  · exact (nextRead_does hps).bind fun _ => Within.get.bind fun _ => Within.pure _

/-- A message sent, whatever is done of what it leaves to do. -/
theorem send_within {R : Core H → Core H → Prop} [IsPreorder (Core H) R]
    (hlift : ∀ {α : Type} {m : Program H α}, Within (Soundly sendActs) m → Within R m)
    (hdrain : Within R (drain (H := H))) (conversation : Option ConversationId) (text : String)
    (attachments : List String) : Within R (send conversation text attachments) := by
  unfold send
  refine Within.bind Within.get fun c => ?_
  split
  · exact Within.pure _
  · split
    · exact Within.pure _
    · refine (hlift (soundly (takeAttachments_does _ _ (by simp)))).bind fun r => ?_
      split
      · exact Within.pure _
      · exact (hlift (soundly ((writeChat_does _ _ _ _).more (by simp)))).bind fun _ =>
          (hlift (queue_does _ _)).bind fun _ => hdrain.bind fun _ => Within.pure _

theorem continueAnswer_does (conversation : Option ConversationId) :
    Within (Idly sendActs) (continueAnswer (H := H) conversation) := by
  unfold continueAnswer
  refine Within.bind Within.get fun c => ?_
  split
  · exact Within.pure _
  · dsimp only
    split
    · exact Within.pure _
    · split
      · exact (idly (queue_does _ _) (by simp)).bind fun _ => drain_idle.bind fun _ => Within.pure _
      · exact Within.pure _

/-- Stopping answers. -/
abbrev stopActs : List Part := [.note, .tweak, .finish]

theorem stopTurn_does (id : Nat) (hps : Part.tweak ∈ ps) :
    Within (Does Act ps) (stopTurn (H := H) id) := by
  unfold stopTurn
  refine Within.bind Within.get fun c => ?_
  split
  · exact Within.pure _
  · refine Within.bind (tweak_does _ (fun _ => ?_) hps) fun _ => Within.pure _
    exact ⟨rfl, rfl, rfl, rfl, rfl, rfl, Nat.le_refl _, Nat.le_refl _⟩

theorem cancel_does (conversation : Option ConversationId) :
    Within (Idly stopActs) (cancel (H := H) conversation) := by
  unfold cancel
  refine Within.bind Within.get fun c => ?_
  split
  · exact Within.pure _
  · refine Within.bind (idly (soundly (stopTurn_does _ (by simp))) (by simp)) fun r => ?_
    split
    · exact Within.pure _
    · split
      · exact (idly (soundly (endTurn_does _ _ (by simp))) (by simp)).bind fun _ =>
          drain_idle.bind fun _ => Within.pure _
      · exact drain_idle.bind fun _ => Within.pure _

theorem forget_does (conversation : ConversationId) :
    Within (Idly stopActs) (forget (H := H) conversation) := by
  unfold forget
  refine Within.bind Within.get fun c => ?_
  split
  · exact Within.pure _
  · exact Within.bind (idly (soundly (stopTurn_does _ (by simp))) (by simp)) fun _ =>
      (idly (soundly (endTurn_does _ _ (by simp))) (by simp)).bind fun _ => drain_idle

theorem stopAll_does (ids : List Nat) :
    Within (Does Act stopActs) (stopAll (H := H) ids) := by
  induction ids with
  | nil => exact Within.pure _
  | cons id rest ih =>
    exact (stopTurn_does _ (by simp)).bind fun _ => ih.bind fun _ => Within.pure _

theorem stopOnLeaving_does (workspace : WorkspaceId) :
    Within (Idly stopActs) (stopOnLeaving (H := H) workspace) := by
  unfold stopOnLeaving
  refine Within.bind Within.get fun c => ?_
  dsimp only
  split
  · refine (idly (soundly (stopAll_does _)) (by simp)).bind fun states => ?_
    refine Within.bind (Within.forM fun x _ => ?_) fun _ =>
      (idly (soundly (notice_does _ _ (by simp))) (by simp)).bind fun _ => drain_idle
    split
    · exact idly (soundly (endTurn_does _ _ (by simp))) (by simp)
    · exact Within.pure _
  · exact Within.pure _

/-- An approved turn going on. -/
abbrev resumeActs : List Part := [.note, .chat, .resume, .mail]

theorem setState_resumes (id : Nat) :
    Within (SoundlyFor id resumeActs) (setState (H := H) id .writing) := by
  unfold setState
  refine Within.get_bind fun s hs => ?_
  split
  · exact ⟨.refl, hs⟩
  · split
    · have hact : Does Act resumeActs s (s.changeTurn id fun t => { t with state := .writing }) :=
        Does.single (p := .resume) ⟨id, hs.2, rfl⟩ (by simp)
      have hmid := hs.1.run hact
      obtain ⟨hnote, hend⟩ := (soundly (emit_does rfl (by simp)) : Within (Soundly resumeActs)
        (emit (H := H) (.turnChanged _ .writing))) _ hmid
      exact ⟨hact.trans hnote, hend, hmid.begins_subset hnote hs.2⟩
    · exact ⟨.refl, hs⟩

/-- While nothing is left to do inside a request, and some turn has begun, if any is meant. -/
abbrev IdlyFor (turn : Option Nat) (ps : List Part) : Core H → Core H → Prop :=
  Keeping (fun c => (c.Sound ∧ c.Idle) ∧ ∀ id ∈ turn, id ∈ c.begins) (Does Act ps)

theorem idlyFor {turn : Option Nat} (h : Within (Idly ps) m) : Within (IdlyFor turn ps) m := by
  intro s hs
  obtain ⟨hdoes, hend⟩ := h s hs.1
  exact ⟨hdoes, hend, fun id hid => hs.1.1.begins_subset hdoes (hs.2 id hid)⟩

theorem resume_does (turn : Option Nat) (tool : String) (params : Json) (outcome : ToolOutcome) :
    Within (IdlyFor turn resumeActs) (resume (H := H) turn tool params outcome) := by
  unfold resume
  refine Within.get_bind fun s hs => ?_
  split
  · exact ⟨.refl, hs⟩
  · next t ht =>
    obtain ⟨id, rfl, ht⟩ := Option.bind_eq_some_iff.1 ht
    obtain ⟨-, rfl⟩ := turnOf_mem ht
    have hbegun : t.id ∈ s.begins := hs.2 _ rfl
    have hstep : Within (SoundlyFor t.id resumeActs)
        (do
          recordCall t.id tool params outcome
          setState t.id .writing
          post (.goOn t.id) : Program H Unit) :=
      (soundlyFor (soundly ((recordCall_does _ _ _ _).more (by simp)))).bind fun _ =>
        (setState_resumes _).bind fun _ => post_does rfl (by simp) (by simp)
    obtain ⟨hdoes, hsound, -⟩ := hstep s ⟨hs.1.1, hbegun⟩
    have hidle := hs.1.2.run hs.1.1 hdoes
    have hrun : ((do
          recordCall t.id tool params outcome
          setState t.id .writing
          post (.goOn t.id)
          drain : Program H Unit).run s).2 = ((do
          recordCall t.id tool params outcome
          setState t.id .writing
          post (.goOn t.id) : Program H Unit).run s).2 :=
      drain_run hidle
    rw [hrun]
    exact ⟨hdoes, ⟨hsound, hidle⟩, fun id hid => hs.1.1.begins_subset hdoes (hs.2 id hid)⟩

/-- A declined call's turn ending. -/
abbrev declineActs : List Part := [.note, .chat, .finish]

theorem declined_does (turn : Option Nat) (tool : String) :
    Within (Idly declineActs) (declined (H := H) turn tool) := by
  unfold declined
  refine Within.bind Within.get fun c => ?_
  split
  · exact Within.pure _
  · exact (idly (soundly ((writeChat_does _ _ _ _).more (by simp))) (by simp)).bind fun _ =>
      (idly (soundly (endTurn_does _ _ (by simp))) (by simp)).bind fun _ => drain_idle

/-! ### Approvals -/

/-- An approval granted. -/
abbrev approveActs : List Part :=
  [.note, .lift, .patch, .desk, .ledger, .ask, .record, .bring, .write, .rewrite, .chat, .resume,
    .mail]

theorem approveEgress_does (id : String) (params : Json) (hps : Part.note ∈ ps) :
    Within (Does Act ps) (approveEgress (H := H) id params) := by
  unfold approveEgress
  split
  · split
    · exact gateway_does _ hps
    · exact Within.pure _
  · exact Within.pure _

/-- An approval declined. -/
abbrev declinedActs : List Part := .lift :: declineActs

theorem approve_declines (id : String) :
    Within (Idly declinedActs) (approve (H := H) id false) := by
  unfold approve
  refine Within.bind Within.get fun c => ?_
  split
  · exact Within.pure _
  · rw [Bool.not_false, if_pos rfl]
    refine Within.bind (idly (soundly (Within.change_by Part.lift (by simp) fun _ =>
      ⟨_, rfl⟩)) (by simp)) fun _ => ?_
    split
    · exact ((declined_does _ _).widen fun _ _ h => h.mono (by simp)).bind fun _ => Within.pure _
    · exact (idly (soundly (notice_does _ _ (by simp))) (by simp)).bind fun _ => Within.pure _

theorem approve_does (id : String) : Within (Idly approveActs) (approve (H := H) id true) := by
  unfold approve
  refine Within.get_bind fun s hs => ?_
  split
  · exact ⟨.refl, hs⟩
  · next p hp =>
    have hturn : ∀ id ∈ p.turn, id ∈ s.begins :=
      hs.1.pending _ _ s.stateOf_active id p hp
    have hlift : ∀ {α : Type} {m : Program H α}, Within (Does Act approveActs) m →
        Within (IdlyFor p.turn approveActs) m := fun h => idlyFor (idly (soundly h) (by simp))
    rw [Bool.not_true, if_neg (by simp)]
    refine And.imp (fun h => h) And.left ((?_ : Within (IdlyFor p.turn approveActs) _) s ⟨hs, hturn⟩)
    refine Within.bind (hlift (Within.change_by Part.lift (by simp) fun _ => ⟨_, rfl⟩)) fun _ => ?_
    refine (hlift (approveEgress_does _ _ (by simp))).bind fun _ =>
      (hlift ((callTool_does _ _ _).more (by simp))).bind fun outcome =>
        Within.get.bind fun _ => (hlift (emit_does rfl (by simp))).bind fun _ => ?_
    split
    · exact ((resume_does _ _ _ _).widen fun _ _ h => h.mono (by simp)).bind fun _ =>
        Within.pure _
    · exact Within.pure _

/-! ### Documents -/

theorem mayEdit_of_check {c : Core H} {doc : DocId} {l : Level}
    (hviewer : ¬c.active.isViewer = true)
    (hcheck : c.access.check c.identity doc .edit = .ok l) : c.mayEdit doc := by
  refine ⟨?_, by simpa using hviewer⟩
  simp only [Core.may, AccessControl.allows, hcheck]
  rfl

/-- A surface's logic asked, and what it hands back written. -/
abbrev eventActs : List Part := [.note, .patch, .desk, .ledger, .record, .bring, .write]

theorem refuseReadOnlyWrite_does (doc : DocId) (hps : Part.note ∈ ps) :
    Within (Does Act ps) (refuseReadOnlyWrite (H := H) doc) :=
  (auditOn_does _ _ _ _ hps).bind fun _ => Within.pure _

theorem writeFromSurface_does (harness : HarnessId) (view : String) (doc : DocId) (next : Json) :
    Within (Does Act strictActs) (writeFromSurface (H := H) harness view doc next) := by
  unfold writeFromSurface
  refine Within.get_bind fun c => ?_
  split
  · exact ((refuseReadOnlyWrite_does _ (by simp)).bind fun _ => Within.pure _ :
      Within (Does Act strictActs) _) c
  · next hviewer =>
    split
    · exact ((auditOn_does _ _ _ _ (by simp)).bind fun _ => Within.pure _ :
        Within (Does Act strictActs) _) c
    · next hcheck =>
      have hR := Rewriting.checked (H := H) doc
      refine And.left ((?_ : Within (Keeping (fun c => c.mayEdit doc) (Does Act strictActs)) _) c
        (mayEdit_of_check hviewer hcheck))
      refine (applyJson_within hR _).bind fun r => ?_
      split
      · exact Within.pure _
      · split
        · exact (commitSurface_within hR _ _ _).bind fun _ =>
            (docChanged_within hR).bind fun _ => Within.pure _
        · exact Within.pure _

/-- The view hears what the logic replied, unless its document was refused. -/
theorem viewHears_does (harness : HarnessId) (view : String) (reply : Bytes)
    (refused : Option Response) : Within (Does Act eventActs)
      (match refused with
      | some refused => return refused
      | none => do
        if !reply.isEmpty then emit (.harnessMessage harness view reply)
        return .ok : Program H Response) := by
  split
  · exact Within.pure _
  · split
    · exact (emit_does rfl (by simp)).bind fun _ => Within.pure _
    · exact Within.pure _

theorem harnessEvent_does (harness : HarnessId) (view : String) (payload : Bytes) :
    Within (Does Act eventActs) (harnessEvent (H := H) harness view payload) := by
  unfold harnessEvent
  split
  · exact Within.pure _
  · refine ((docFor_does _).more (by simp)).bind fun d => ?_
    split
    · exact Within.pure _
    · refine Within.bind Within.get fun c => ?_
      split
      · exact Within.pure _
      · dsimp only
        refine (runLogic_does _ _ (by simp)).bind fun r => ?_
        split
        · exact Within.pure _
        · exact Within.pure _
        · next reply next =>
          have htail := viewHears_does (H := H) harness view reply
          split
          · exact ((writeFromSurface_does _ _ _ _).more (by simp)).bind htail
          · exact htail none

theorem presence_does (board : Option HarnessId) (peer : String) :
    Within (Does Act openActs) (presence (H := H) board peer) := by
  unfold presence
  split
  · exact Within.pure _
  · split
    · exact Within.pure _
    · refine (docFor_does _).bind fun d => ?_
      split
      · exact Within.pure _
      · refine Within.bind Within.get fun c => ?_
        split <;> exact Within.pure _

theorem openDoc_does (harness : HarnessId) :
    Within (Does Act openActs) (openDoc (H := H) harness) := by
  unfold openDoc
  refine Within.bind Within.get fun c => ?_
  split
  · exact Within.pure _
  · refine (docFor_does _).bind fun d => ?_
    split
    · exact Within.pure _
    · refine Within.bind Within.get fun c => ?_
      split <;> exact Within.pure _

theorem getDocJson_does (harness : HarnessId) :
    Within (Does Act openActs) (getDocJson (H := H) harness) := by
  unfold getDocJson
  refine (docFor_does _).bind fun d => ?_
  split
  · exact Within.pure _
  · refine Within.bind Within.get fun c => ?_
    split <;> exact Within.pure _

theorem getWidgetView_does (harness : HarnessId) (view : String) :
    Within (Does Act gatherActs) (getWidgetView (H := H) harness view) := by
  unfold getWidgetView
  refine ((docFor_does _).more (by simp)).bind fun d => Within.bind Within.get fun c => ?_
  refine Within.bind Within.get fun c => ?_
  split
  · exact Within.pure _
  · refine (ensureRuntime_does _ (by simp)).bind fun r => ?_
    split
    · exact Within.pure _
    · refine (nextRead_does (by simp)).bind fun n => ?_
      split
      · exact Within.pure _
      · split <;> exact Within.pure _

theorem getDocBlob_does (doc : DocId) (hps : Part.note ∈ ps) :
    Within (Does Act ps) (getDocBlob (H := H) doc) := by
  unfold getDocBlob
  refine Within.bind Within.get fun c => ?_
  split
  · exact Within.pure _
  · exact (auditOn_does _ _ _ _ hps).bind fun _ => Within.pure _

theorem writeDoc_does (harness : HarnessId) (view : String) (next : Json) (commit : Bool) :
    Within (Does Act eventActs) (writeDoc (H := H) harness view next commit) := by
  unfold writeDoc
  refine Within.bind Within.get fun c => ?_
  split
  · exact Within.pure _
  · split
    · exact Within.pure _
    · refine ((docFor_does _).more (by simp)).bind fun d => ?_
      split
      · exact Within.pure _
      · next doc =>
        refine Within.get_bind fun c => ?_
        split
        · exact refuseReadOnlyWrite_does _ (by simp) c
        · next hviewer =>
          split
          · exact .refl
          · next hcheck =>
            have hR := Rewriting.checked (H := H) doc
            refine Does.mono (And.left ((?_ : Within (Keeping (fun c => c.mayEdit doc)
              (Does Act strictActs)) _) c (mayEdit_of_check hviewer hcheck))) (by simp)
            refine (applyJson_within hR _).bind fun r => ?_
            split
            · exact Within.pure _
            · split
              · split
                · exact (commitSurface_within hR _ _ _).bind fun _ =>
                    (docChanged_within hR).bind fun _ => Within.pure _
                · exact (docChanged_within hR).bind fun _ => Within.pure _
              · exact Within.pure _

/-- A replica's message applied. -/
abbrev syncActs : List Part :=
  [.note, .patch, .desk, .ledger, .write, .unreplica, .replica]

theorem receiveSync_does (doc : DocId) (peer : String) (message : Bytes) :
    Within (Keeping (fun c => c.mayEdit doc) (Does Act syncActs))
      (receiveSync (H := H) doc peer message) := by
  unfold receiveSync
  refine Within.bind ?_ fun replica => Within.get_bind fun s hs => ?_
  · have htake : Within (Does Act [.unreplica]) (takeReplica (H := H) doc peer) :=
      takeReplica_does doc peer (by simp)
    exact fun s hs => ⟨(htake s).mono (by simp), mayEdit_of_does ((htake s).mono (by simp)) hs⟩
  · have hwrite : Does Act syncActs s
        { s with docs := (s.docs.receiveSync doc replica.state message).2.2 } :=
      Does.single (p := .write) ⟨[doc], _, s.dag, by simpa using hs.1, hs.2,
        s.docs.receiveSync_touches _ _ _, .refl _ _, rfl⟩ (by simp)
    have hput : ∀ state, Does Act syncActs
        { s with docs := (s.docs.receiveSync doc replica.state message).2.2 }
        ((putReplica doc peer state).run
          { s with docs := (s.docs.receiveSync doc replica.state message).2.2 }).2 :=
      fun state => Does.single (p := .replica) ⟨doc, peer, state, hs.1, rfl⟩ (by simp)
    exact ⟨hwrite.trans (hput _), hs⟩

theorem docSync_does (doc : DocId) (peer : String) (message : Bytes) :
    Within (Does Act syncActs) (docSync (H := H) doc peer message) := by
  unfold docSync
  refine Within.get_bind fun c => ?_
  split
  · exact refuseReadOnlyWrite_does _ (by simp) c
  · next hviewer =>
    split
    · exact .refl
    · next hcheck =>
      have hR := Rewriting.checked (H := H) doc
      have hmore : ∀ {α : Type} {m : Program H α},
          Within (Keeping (fun c => c.mayEdit doc) (Does Act strictActs)) m →
          Within (Keeping (fun c => c.mayEdit doc) (Does Act syncActs)) m :=
        fun h => h.widen fun _ _ h => h.mono (by simp)
      dsimp only
      refine And.left ((?_ : Within (Keeping (fun c => c.mayEdit doc) (Does Act syncActs)) _) c
        (mayEdit_of_check hviewer hcheck))
      refine (receiveSync_does doc peer message).bind fun r => ?_
      split
      · exact Within.pure _
      · split
        · exact Within.get.bind fun _ => (hmore (commitSurface_within hR _ _ _)).bind fun _ =>
            (hmore (docChanged_within hR)).bind fun _ => Within.pure _
        · exact (hmore (hR.within (syncReplica_does _ _ (by simp)))).bind fun _ => Within.pure _

theorem docSyncEnd_does (doc : DocId) (peer : String) (hps : Part.unreplica ∈ ps) :
    Within (Does Act ps) (docSyncEnd (H := H) doc peer) := by
  refine Within.bind (Within.change_by Part.unreplica hps (fun s => ?_)) fun _ => Within.pure _
  dsimp only
  split
  · exact ⟨doc, peer, .inr rfl⟩
  · exact ⟨doc, peer, .inl rfl⟩

/-! ### Undoing -/

namespace Dag

variable {dag dag' : Dag} {doc : DocId}

theorem undo_touches {revert : Revert} (h : dag.undo doc = .ok (revert, dag')) :
    dag.Touches [doc] dag' ∧ revert.doc = doc := by
  unfold undo at h
  split at h
  · cases h
  · split at h
    · cases h
    · next head _ =>
      dsimp only at h
      have hmoved := dag.setHead_touches doc head.parent
      split at h
      · cases h
        exact ⟨hmoved, rfl⟩
      · split at h
        · cases h
        · cases h
          exact ⟨hmoved, rfl⟩

theorem redo_touches (dag : Dag) (doc : DocId) :
    dag.Touches [doc] (dag.redo doc).2 ∧ ∀ revert, (dag.redo doc).1 = .ok revert →
      revert.doc = doc := by
  unfold redo
  split
  · exact ⟨.refl _ _, fun _ h => by cases h⟩
  · next id rest _ =>
    have hmoved := dag.setHead_touches doc (some id)
    dsimp only
    split
    · exact ⟨hmoved, fun _ h => by cases h⟩
    · refine ⟨hmoved, fun _ h => ?_⟩
      cases h
      rfl

/-- A run dropped: only the documents it touched change. -/
theorem dropRun_touches {run : String} {reverts : List Revert}
    (h : dag.dropRun run = .ok (reverts, dag')) :
    dag.Touches ((dag.all.filter fun c => c.run = some run).map Commit.doc) dag' ∧
      ∀ r ∈ reverts, r.doc ∈ (dag.all.filter fun c => c.run = some run).map Commit.doc := by
  unfold dropRun at h
  dsimp only at h
  split at h
  · cases h
  · generalize htouched : (dag.all.filter fun c => c.run = some run).map Commit.doc = touched at h ⊢
    have hfold : ∀ (docs : List DocId), (∀ d ∈ docs, d ∈ touched) →
        ∀ acc : List Revert × Dag, dag.Touches touched acc.2 → (∀ r ∈ acc.1, r.doc ∈ touched) →
        ∀ acc', acc' = docs.foldl (fun (acc : List Revert × Dag) doc =>
          let r := dropDoc dag.all run acc.2 doc
          (acc.1 ++ [r.1], r.2)) acc →
        dag.Touches touched acc'.2 ∧ ∀ r ∈ acc'.1, r.doc ∈ touched := by
      intro docs
      induction docs with
      | nil =>
        rintro - acc hdag hacc acc' rfl
        exact ⟨hdag, hacc⟩
      | cons d docs ih =>
        rintro hdocs acc hdag hacc acc' rfl
        refine ih (fun x hx => hdocs x (List.mem_cons_of_mem _ hx)) _ ?_ ?_ _ rfl
        · intro x hx
          have hne : x ∉ [d] := by
            rw [List.mem_singleton]
            rintro rfl
            exact hx (hdocs _ List.mem_cons_self)
          exact (acc.2.setHead_touches d _ x hne).trans (hdag x hx)
        · intro r hr
          rcases List.mem_append.1 hr with hr | hr
          · exact hacc r hr
          · rw [List.mem_singleton.1 hr]
            exact hdocs d List.mem_cons_self
    have hok := Except.ok.inj h
    exact hfold _ (fun d hd => mem_sortDedup.1 hd) ([], dag) (.refl _ _) (by simp) _ hok.symm

end Dag

theorem mayEdit_of_undoable {c : Core H} {doc : DocId} (h : c.undoableDoc = some doc) :
    c.mayEdit doc := by
  unfold Core.undoableDoc at h
  split at h
  · cases h
  · next hviewer =>
    have := List.find?_some h
    simp only [Bool.and_eq_true] at this
    exact ⟨this.2, by simpa using hviewer⟩

theorem revertAndAnswer_does {revert : Revert} {c : Core H} (hmay : c.mayEdit revert.doc) :
    Does Act strictActs c
      (((do return revertResponse (← applyRevert revert) : Program H Response)).run c).2 := by
  have h : Within (Keeping (fun c => c.mayEdit revert.doc) (Does Act strictActs))
      (do return revertResponse (← applyRevert revert) : Program H Response) :=
    (applyRevert_within revert).bind fun _ => Within.pure _
  exact (h c hmay).1

theorem undo_does : Within (Does Act strictActs) (undo (H := H)) := by
  unfold undo
  refine Within.get_bind fun c => ?_
  split
  · exact .refl
  · next doc hdoc =>
    have hmay := mayEdit_of_undoable hdoc
    split
    · exact .refl
    · next revert dag hundo =>
      obtain ⟨htouch, rfl⟩ := Dag.undo_touches hundo
      rw [run_bind, run_modify]
      dsimp only
      have hwrite : Does Act strictActs c { c with dag := dag } :=
        Does.single (p := .write) ⟨[revert.doc], c.docs, dag, by simpa using hmay.1, hmay.2,
          .refl _ _, htouch, rfl⟩ (by simp)
      exact hwrite.trans (revertAndAnswer_does hmay)

theorem redo_does : Within (Does Act strictActs) (redo (H := H)) := by
  unfold redo
  refine Within.get_bind fun c => ?_
  split
  · exact .refl
  · next doc hdoc =>
    have hmay := mayEdit_of_undoable hdoc
    obtain ⟨htouch, hrevert⟩ := c.dag.redo_touches doc
    dsimp only
    rw [run_bind, run_modify]
    dsimp only
    have hwrite : Does Act strictActs c { c with dag := (c.dag.redo doc).2 } :=
      Does.single (p := .write) ⟨[doc], c.docs, _, by simpa using hmay.1, hmay.2, .refl _ _,
        htouch, rfl⟩ (by simp)
    split
    · exact hwrite
    · next revert hok =>
      obtain rfl := hrevert revert hok
      exact hwrite.trans (revertAndAnswer_does hmay)

theorem may_of_firstDenied {c : Core H} {docs : List DocId}
    (h : c.firstDenied .edit docs = none) : ∀ d ∈ docs, c.may d .edit = true := by
  induction docs with
  | nil => simp
  | cons d docs ih =>
    unfold Core.firstDenied at h
    split at h
    · cases h
    · next hcheck =>
      intro x hx
      rcases List.mem_cons.1 hx with rfl | hx
      · simp only [Core.may, AccessControl.allows, hcheck]
        rfl
      · exact ih h x hx

theorem mayEdit_of_strict {doc : DocId} {s t : Core H} (h : Does Act strictActs s t)
    (hs : s.mayEdit doc) : t.mayEdit doc := by
  refine h.preserves (I := fun t => t.mayEdit doc) ?_ hs
  intro p hp s t hact hs
  by_cases hw : p = .write
  · subst hw
    obtain ⟨_, _, _, _, _, _, _, rfl⟩ := hact
    exact hs
  · exact mayEdit_of_does (Does.single (p := p) hact (by simp_all; tauto)) hs

theorem dropRun_does (run : String) : Within (Does Act strictActs) (dropRun (H := H) run) := by
  unfold dropRun
  refine Within.get_bind fun c => ?_
  split
  · exact .refl
  · next hviewer =>
    split
    · exact .refl
    · next hdenied =>
      have hmay := may_of_firstDenied hdenied
      split
      · exact .refl
      · next reverts dag hdrop =>
        obtain ⟨htouch, hreverts⟩ := Dag.dropRun_touches hdrop
        have hviewer : c.active.isViewer = false := by simpa using hviewer
        rw [run_bind, run_modify]
        dsimp only
        have hwrite : Does Act strictActs c { c with dag := dag } :=
          Does.single (p := .write) ⟨_, c.docs, dag, hmay, hviewer, .refl _ _, htouch, rfl⟩
            (by simp)
        let P : Core H → Prop := fun c' => ∀ r ∈ reverts, c'.mayEdit r.doc
        have hrest : Within (Keeping P (Does Act strictActs))
            (do
              reverts.forM fun r => do
                let _ ← applyRevert r
              modify fun c => c.own fun u => { u with
                proposals := u.proposals.filter fun p => p.run ≠ run }
              return .ok : Program H Response) := by
          refine Within.bind (Within.forM fun r hr => ?_) fun _ => Within.bind ?_ fun _ =>
            Within.pure _
          · refine Within.bind (fun s hs => ?_) fun _ => Within.pure _
            obtain ⟨hdoes, -⟩ := applyRevert_within r s (hs r hr)
            exact ⟨hdoes, fun x hx => mayEdit_of_strict hdoes (hs x hx)⟩
          · exact fun s hs => ⟨Does.single (p := .ledger)
              ⟨s.mine.run, s.mine.task,
              s.mine.proposals.filter fun p => p.run ≠ run, s.store.ledgers, rfl⟩ (by simp), hs⟩
        refine hwrite.trans (hrest { c with dag := dag } fun r hr => ⟨hmay r.doc (hreverts r hr), hviewer⟩).1

end LocalSpace
