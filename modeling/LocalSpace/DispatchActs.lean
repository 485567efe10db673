import LocalSpace.Frames
import LocalSpace.RequestActs

/-!
# By which acts every request goes

The requests left: focus and chats, workspaces and accounts, packages, evals. With them, for
each request the kinds of acts its handling may go by, `requestActs`, and that it goes by no
others (`dispatch_does`). An eval run, which answers turns inside itself, is apart in that it
may leave something to do inside it; a request that returns does not.

From these `Core.step_does`: by which acts a message goes, from a ready Core, and that Core is
ready after it.
-/

namespace LocalSpace

open Library

variable {H : Host} {ps qs : List Part} {α : Type} {m : Program H α}

/-! ### Chats -/

namespace Chats

variable (s : Chats) (db : Store)

theorem start_store (now : Nat) : ∃ current, (s.start db now).2 =
    { db with currentConversations := current } := by
  unfold start
  split
  · exact ⟨_, rfl⟩
  · exact ⟨_, rfl⟩

theorem select_store (id : ConversationId) : ∃ current, (s.select db id).2.2 =
    { db with currentConversations := current } := by
  unfold select
  split
  · exact ⟨_, rfl⟩
  · exact ⟨_, rfl⟩

theorem delete_store (id : ConversationId) (now : Nat) : ∃ rows current,
    (s.delete db id now).2.2 =
      { db with conversations := rows, currentConversations := current } := by
  unfold delete
  dsimp only
  split
  · exact ⟨_, _, rfl⟩
  · split
    · split
      · exact ⟨_, _, rfl⟩
      · obtain ⟨current, h⟩ := start_store
          ({ s with conversations := s.conversations.filter fun c => c.id ≠ id })
          (db.deleteConversation s.user s.workspace id) now
        exact ⟨_, current, h⟩
    · exact ⟨_, _, rfl⟩

theorem rename_store (id : ConversationId) (title : String) : ∃ rows,
    (s.rename db id title).2.2 = { db with conversations := rows } := by
  unfold rename
  split
  · exact ⟨_, rfl⟩
  · exact persist_eq _ _ _

end Chats

theorem setFocus_does (harness : Option HarnessId) :
    Within (Does Act [.note, .desk]) (setFocus (H := H) harness) :=
  Within.bind (Within.change_by Part.desk (by simp) fun s =>
      ⟨harness, s.mine.pinned, s.mine.touched, rfl⟩) fun _ =>
    (emitEnvironment_does (by simp)).bind fun _ => Within.pure _

theorem setPinned_does (harness : HarnessId) (pinned : Bool) :
    Within (Does Act [.note, .desk]) (setPinned (H := H) harness pinned) :=
  Within.bind (Within.change_by Part.desk (by simp) fun s =>
    ⟨s.mine.focus, _, s.mine.touched, rfl⟩) fun _ =>
    (emitEnvironment_does (by simp)).bind fun _ => Within.pure _

theorem newConversation_does : Within (Does Act chatActs) (newConversation (H := H)) := by
  unfold newConversation
  refine recordConversation_does.bind fun _ => (nowMs_does (by simp)).bind fun now => ?_
  refine Within.bind (Within.change_by Part.chat (by simp) fun s => ?_) fun _ =>
    Within.get.bind fun _ =>
    (emit_does rfl (by simp)).bind fun _ => Within.get.bind fun _ => Within.pure _
  obtain ⟨current, h⟩ := s.mine.conversations.start_store s.store now
  exact ⟨[], _, s.store.conversations, current, by rw [← h]⟩

theorem selectConversation_does (id : ConversationId) :
    Within (Does Act chatActs) (selectConversation (H := H) id) := by
  unfold selectConversation
  refine recordConversation_does.bind fun _ => Within.get_bind fun s => ?_
  dsimp only
  split
  · exact .refl
  · next chat hchat =>
    obtain ⟨current, h⟩ := s.mine.conversations.select_store s.store id
    refine Within.change_bind (Does.single (p := .chat) ⟨chat.messages, _,
      s.store.conversations, current, by rw [h]⟩ (by simp)) fun _ => ?_
    exact (emit_does rfl (by simp)).bind fun _ => Within.get.bind fun _ => Within.pure _

theorem showCurrent_does : Within (Does Act chatActs) (showCurrent (H := H)) :=
  Within.bind (Within.change_by Part.chat (by simp) fun s =>
      ⟨(s.mine.conversations.currentChat.map Conversation.messages).getD [], s.mine.conversations,
        s.store.conversations, s.store.currentConversations, rfl⟩) fun _ =>
    Within.get.bind fun _ => emit_does rfl (by simp)

theorem renameConversation_does (id : ConversationId) (title : String) :
    Within (Does Act chatActs) (renameConversation (H := H) id title) := by
  unfold renameConversation
  refine Within.get_bind fun s => ?_
  dsimp only
  obtain ⟨rows, h⟩ := s.mine.conversations.rename_store s.store id title
  refine Within.change_bind (Does.single (p := .chat) ⟨s.mine.transcript, _, rows,
    s.store.currentConversations, by rw [h]; rfl⟩ (by simp)) fun _ => ?_
  split
  · exact Within.get.bind fun _ => Within.pure _
  · exact Within.pure _

/-- A chat deleted, its answer ending first. -/
abbrev deleteActs : List Part := [.note, .tweak, .finish, .chat]

theorem deleteConversation_does (id : ConversationId) :
    Within (Idly deleteActs) (deleteConversation (H := H) id) := by
  unfold deleteConversation
  refine ((forget_does _).widen fun _ _ h => h.mono (by simp)).bind fun _ => ?_
  refine idly (soundly ?_) (by simp)
  refine (recordConversation_does.more (by simp)).bind fun _ =>
    (nowMs_does (by simp)).bind fun now => ?_
  refine Within.get_bind fun s => ?_
  dsimp only
  obtain ⟨rows, current, h⟩ := s.mine.conversations.delete_store s.store id now
  refine Within.change_bind (Does.single (p := .chat) ⟨s.mine.transcript, _, rows, current,
    by rw [h]; rfl⟩ (by simp)) fun _ => ?_
  split
  · exact (showCurrent_does.more (by simp)).bind fun _ => Within.get.bind fun _ => Within.pure _
  · exact Within.pure _

/-! ### Workspaces and accounts -/

theorem previewContext_does (budget : Nat) :
    Within (Does Act [.note, .record, .bring, .profile]) (previewContext (H := H) budget) := by
  unfold previewContext
  refine Within.bind Within.get fun c => ?_
  exact Within.bind (Within.change_by Part.profile (by simp) fun _ => ⟨_, rfl⟩) fun _ =>
    (contextBlocks_does.more (by simp)).bind fun _ =>
      Within.bind (Within.change_by Part.profile (by simp) fun _ => ⟨_, rfl⟩) fun _ => Within.pure _

theorem requireAdmin_does (event : String) (hps : Part.note ∈ ps) :
    Within (Does Act ps) (requireAdmin (H := H) event) := by
  unfold requireAdmin
  refine Within.bind Within.get fun c => ?_
  split
  · exact Within.pure _
  · exact (auditOn_does _ _ _ _ hps).bind fun _ => Within.pure _

theorem requireWorkspaceOwner_does (workspace : WorkspaceId) (event : String)
    (hps : Part.note ∈ ps) :
    Within (Does Act ps) (requireWorkspaceOwner (H := H) workspace event) := by
  unfold requireWorkspaceOwner
  refine Within.bind Within.get fun c => ?_
  split
  · exact Within.pure _
  · split
    · exact Within.pure _
    · split
      · exact Within.pure _
      · exact (auditAppend_does _ _ _ _ hps).bind fun _ => Within.pure _

/-- A change to a workspace. -/
abbrev memberActs : List Part := [.note, .member, .persist]

theorem persistWorkspace_does (id : WorkspaceId) :
    Within (Does Act memberActs) (persistWorkspace (H := H) id) := by
  intro s
  unfold persistWorkspace
  rw [run_modify]
  dsimp only
  split
  · next ws hws => exact Does.single (p := .persist) ⟨id, ws, hws, rfl⟩ (by simp)
  · exact .refl

theorem changeWorkspace_does (workspace : WorkspaceId) (event : String) (detail : Json)
    {change : Workspace → Workspace} (hchange : ∀ ws, (change ws).id = ws.id) :
    Within (Does Act memberActs) (changeWorkspace (H := H) workspace event detail change) :=
  Within.bind (Within.change_by Part.member (by simp) fun _ =>
    ⟨workspace, change, hchange, rfl⟩) fun _ =>
    (persistWorkspace_does _).bind fun _ => (auditAppend_does _ _ _ _ (by simp)).bind fun _ =>
      Within.get.bind fun _ => Within.pure _

theorem setMember_does (workspace : WorkspaceId) (principal : Principal) (level : Level) :
    Within (Does Act memberActs) (setMember (H := H) workspace principal level) := by
  unfold setMember
  refine (requireWorkspaceOwner_does _ _ (by simp)).bind fun r => ?_
  split
  · exact Within.pure _
  · split
    · exact Within.pure _
    · exact changeWorkspace_does _ _ _ fun _ => rfl

theorem removeMember_does (workspace : WorkspaceId) (principal : Principal) :
    Within (Does Act memberActs) (removeMember (H := H) workspace principal) := by
  unfold removeMember
  refine (requireWorkspaceOwner_does _ _ (by simp)).bind fun r => ?_
  split
  · exact Within.pure _
  · refine Within.bind Within.get fun c => ?_
    split
    · exact changeWorkspace_does _ _ _ fun _ => rfl
    · exact Within.pure _

theorem setAgentWrites_does (workspace : WorkspaceId) (mode : AgentWrites) :
    Within (Does Act memberActs) (setAgentWrites (H := H) workspace mode) := by
  unfold setAgentWrites
  refine (requireWorkspaceOwner_does _ _ (by simp)).bind fun r => ?_
  split
  · exact Within.pure _
  · exact changeWorkspace_does _ _ _ fun _ => rfl

theorem createWorkspace_does (name : String) :
    Within (Does Act [.note, .found]) (createWorkspace (H := H) name) := by
  unfold createWorkspace
  refine (requireAdmin_does _ (by simp)).bind fun r => ?_
  split
  · exact Within.pure _
  · dsimp only
    split
    · exact Within.pure _
    · intro s
      have hrest : ∀ id, Within (Does Act [.note, .found]) (do
          auditAppend (workspaceScope id) "workspace.create"
            (.obj [("name", .str (trim name)), ("workspace", .str id)]) "ok"
          return .workspaces (← get).workspaceInfos : Program H Response) := fun id =>
        (auditAppend_does _ _ _ _ (by simp)).bind fun _ => Within.get.bind fun _ => Within.pure _
      exact (Does.single (p := .found) ⟨(trim name), H.clock (s.reads + 1), rfl⟩ (by simp)).trans
        (hrest _ _)

/-- A tightening. -/
theorem setDocumentAccess_does (doc : DocId) (members : Option (List Member)) :
    Within (Does Act [.note, .tighten doc]) (setDocumentAccess (H := H) doc members) := by
  unfold setDocumentAccess
  refine Within.get_bind fun s => ?_
  split
  · exact ((auditOn_does _ _ _ _ (by simp)).bind fun _ => Within.pure _ :
      Within (Does Act [.note, .tighten doc]) _) s
  · dsimp only
    split
    · exact .refl
    · next access haccess =>
      exact Within.change_bind
        (Does.single (p := .tighten doc) ⟨_, access, haccess, rfl⟩ (by simp))
        fun _ => (auditOn_does _ _ _ _ (by simp)).bind fun _ => Within.pure _

theorem changeAccount_does (user : UserId) (event : String) (detail : Json)
    {change : UserRecord → UserRecord} {p : Part} (hps : Part.note ∈ ps) (hp : p ∈ ps)
    (hchange : ∀ (s : Core H) record, s.store.users.lookup user = some record →
      Act p s { s with store := { s.store with
        users := s.store.users.insert user (change record) } }) :
    Within (Does Act ps) (changeAccount (H := H) user event detail change) := by
  unfold changeAccount
  refine Within.get_bind fun s => ?_
  split
  · exact .refl
  · next record hrecord =>
    exact Within.change_bind (Does.single (hchange s record hrecord) hp) fun _ =>
      (auditOn_does _ _ _ _ hps).bind fun _ => Within.get.bind fun _ => Within.pure _

theorem setUserRoles_does (user : UserId) (roles : List UserRole) :
    Within (Does Act [.note, .roles]) (setUserRoles (H := H) user roles) := by
  unfold setUserRoles
  refine (requireAdmin_does _ (by simp)).bind fun r => ?_
  split
  · exact Within.pure _
  · split
    · exact Within.pure _
    · exact changeAccount_does (p := .roles) _ _ _ (by simp) (by simp) fun _ record hrecord =>
        ⟨user, record, roles, hrecord, rfl⟩

theorem disableUser_does (user : UserId) (disabled : Bool) :
    Within (Does Act [.note, .disable]) (disableUser (H := H) user disabled) := by
  unfold disableUser
  refine (requireAdmin_does _ (by simp)).bind fun r => ?_
  split
  · exact Within.pure _
  · exact changeAccount_does (p := .disable) _ _ _ (by simp) (by simp) fun _ record hrecord =>
      ⟨user, record, disabled, hrecord, rfl⟩

theorem addAccount_does (email : String) (roles : List UserRole)
    (hps : Part.enrol ∈ ps) :
    Within (Does Act ps) (addAccount (H := H) email roles) := by
  unfold addAccount
  dsimp only
  split
  · exact Within.pure _
  · refine Within.get_bind fun s => ?_
    split
    · exact .refl
    · exact Does.single (p := .enrol)
        ⟨⟨s!"u_{H.uuid s.reads}", normaliseEmail email, roles, false⟩, rfl, rfl⟩ hps

theorem createUser_does (email : String) (roles : List UserRole) :
    Within (Does Act [.note, .enrol]) (createUser (H := H) email roles) := by
  unfold createUser
  refine (requireAdmin_does _ (by simp)).bind fun r => ?_
  split
  · exact Within.pure _
  · split
    · exact Within.pure _
    · refine (addAccount_does _ _ (by simp)).bind fun r => ?_
      split
      · exact Within.pure _
      · exact (auditOn_does _ _ _ _ (by simp)).bind fun _ => Within.pure _

theorem handleSystem_does (req : SystemRequest) :
    Within (Does Act [.enrol]) (handleSystem (H := H) req) := by
  cases req with
  | firstAdmin email =>
    refine Within.bind Within.get fun c => ?_
    split
    · exact (addAccount_does _ _ (by simp)).bind fun _ => Within.pure _
    · exact Within.pure _
  | other => exact Within.pure _

/-! ### Going to a workspace -/

/-- Entering a workspace: its members go, an administrator on a reason. -/
theorem enterWorkspace_does (ws : Workspace) (reason : Option String) :
    Within (Does Act [.note, .glass]) (enterWorkspace (H := H) ws reason) := by
  unfold enterWorkspace
  refine Within.get_bind fun s => ?_
  split
  · exact Does.single (p := .glass) ⟨none, by simp, rfl⟩ (by simp)
  · dsimp only
    split
    · next hadmin =>
      split
      · next reason _ =>
        have hnote : Within (Does Act [.note, .glass]) (auditAppend (H := H) (workspaceScope ws.id)
            "workspace.break_glass" (.obj [("reason", .str reason)]) "ok") :=
          auditAppend_does _ _ _ _ (by simp)
        refine (hnote s).trans ?_
        exact Does.single (p := .glass) ⟨some ⟨ws.id, reason⟩, fun _ => hadmin, rfl⟩ (by simp)
      · exact .refl
    · exact ((auditAppend_does _ _ _ _ (by simp)).bind fun _ => Within.pure _ :
        Within (Does Act [.note, .glass]) _) s

/-- Moving there. -/
abbrev moveActs : List Part := [.note, .chat, .place, .unpack, .ledger]

/-- The workspaces are as they were after acts that do not change them. -/
theorem workspaces_kept {s t : Core H} (hs : s.Sound) (h : Does Act ps s t)
    (hps : (fine ps).all (fun p => p.plain && !p.governs) = true := by rfl) :
    t.access.workspaces = s.access.workspaces := by
  refine hs.keeps (I := fun t => t.access.workspaces = s.access.workspaces) h ?_ rfl
  intro p hp u v _ hact hu
  have hp := List.all_eq_true.1 hps p hp
  simp only [Bool.and_eq_true, Bool.not_eq_true'] at hp
  exact ((hact.frame hp.1).workspaces hp.2).trans hu

theorem moveTo_does {ws : Workspace} {id : WorkspaceId} {s : Core H} (hs : s.Sound)
    (hws : s.access.workspace id = some ws) :
    Does Act moveActs s ((moveTo ws.id).run s).2 := by
  unfold moveTo
  have hrecord := recordConversation_does s
  have hws' : ((recordConversation.run s).2).access.workspace id = some ws := by
    unfold AccessControl.workspace
    rw [workspaces_kept hs hrecord]
    exact hws
  rw [run_bind]
  refine (hrecord.mono (by simp)).trans (Within.change_bind
    (Does.single (p := .place) ⟨id, ws, hws', rfl⟩ (by simp)) fun _ => ?_)
  refine (nowMs_does (by simp)).bind fun now => ?_
  refine Within.bind (Within.change_by Part.unpack (by simp) fun c => ?_) fun _ =>
    (auditAppend_does _ _ _ _ (by simp)).bind fun _ => Within.get.bind fun _ =>
      (emit_does rfl (by simp)).bind fun _ =>
      (emitTask_does.more (by simp))
  obtain ⟨current, h⟩ := Core.load_store c.store c.active.user ws.id now
  exact ⟨_, _, _, c.store.conversations, current,
    c.store.currentWorkspaces.insert c.active.user ws.id, by
      dsimp only [Store.setCurrentWorkspace]
      rw [h]⟩

/-- Going to a workspace. -/
abbrev selectActs : List Part :=
  [.note, .glass, .tweak, .finish, .chat, .place, .unpack, .ledger]

theorem selectWorkspace_does (workspace : WorkspaceId) (reason : Option String) :
    Within (Idly selectActs) (selectWorkspace (H := H) workspace reason) := by
  unfold selectWorkspace
  refine Within.get_bind fun s hs => ?_
  split
  · exact ⟨.refl, hs⟩
  · next ws hws =>
    let P : Core H → Prop := fun c => (c.Sound ∧ c.Idle) ∧ c.access.workspace workspace = some ws
    have hkeep : ∀ {α : Type} {qs : List Part} {m : Program H α}, Within (Idly qs) m →
        qs ⊆ selectActs → (fine qs).all (fun p => p.plain && !p.governs) = true →
        Within (Keeping P (Does Act selectActs)) m := by
      intro α qs m hm hsub hqs c hc
      obtain ⟨hdoes, hend⟩ := hm c hc.1
      refine ⟨hdoes.mono hsub, hend, ?_⟩
      unfold AccessControl.workspace
      rw [workspaces_kept hc.1.1 hdoes hqs]
      exact hc.2
    refine And.imp (fun h => h) And.left
      ((?_ : Within (Keeping P (Does Act selectActs)) _) s ⟨hs, hws⟩)
    refine (hkeep (idly (soundly (enterWorkspace_does ws reason)) (by simp)) (by simp) rfl).bind
      fun r => ?_
    split
    · exact Within.pure _
    · refine Within.get.bind fun c => ?_
      have hend : Within (Keeping P (Does Act selectActs))
          (do emitEnvironment; return .environment (← get).environment : Program H Response) :=
        (hkeep (idly (soundly (emitEnvironment_does (by simp))) (by simp) :
          Within (Idly [.note]) _) (by simp) rfl).bind fun _ =>
          Within.get.bind fun _ => Within.pure _
      dsimp only
      split
      · refine (hkeep (stopOnLeaving_does _) (by simp) rfl).bind fun _ => Within.bind ?_ fun _ => hend
        intro c hc
        have hdoes := moveTo_does hc.1.1 hc.2
        refine ⟨hdoes.mono (by simp), ⟨hc.1.1.run hdoes, hc.1.2.run hc.1.1 hdoes⟩, ?_⟩
        unfold AccessControl.workspace
        rw [workspaces_kept hc.1.1 hdoes]
        exact hc.2
      · exact hend

/-! ### Packages -/

/-- A package put in, what it needs first. -/
abbrev installActs : List Part := [.note, .hold, .package, .record, .bring, .desk, .lock]

/-- What is left of it once it may be put in. -/
theorem putIn_does (staged : Staged) : Within (Does Act installActs) (do
    match ← ensureRuntime staged.package.id with
    | .error e => return .error e
    | .ok _ =>
      modify fun c => { c with registry := c.registry.insert staged.package }
      let doc ← docFor staged.package.id
      auditOn (doc.getD "") "harness.install" (.obj [("harness", .str staged.package.id)]) "ok"
      modify fun c => c.own fun u => { u with
        focus := if u.focus.isNone && staged.package.isHarness then some staged.package.id
          else u.focus }
      writeLock
      return .ok .done : Program H (Except String Installing)) := by
  refine (ensureRuntime_does _ (by simp)).bind fun r => ?_
  split
  · exact Within.pure _
  · refine Within.bind (Within.change_by Part.package (by simp) fun s =>
      ⟨s.registry.insert _, rfl⟩)
      fun _ => ((docFor_does _).more (by simp)).bind fun _ =>
        (auditOn_does _ _ _ _ (by simp)).bind fun _ => ?_
    exact Within.bind (Within.change_by Part.desk (by simp) fun s =>
      ⟨if (s.mine.focus.isNone && staged.package.isHarness) = true then some staged.package.id
        else s.mine.focus, s.mine.pinned, s.mine.touched, rfl⟩) fun _ =>
      (writeLock_does.more (by simp)).bind fun _ => Within.pure _

theorem placePackage_does (path : String) (approved : Bool) (staged : Staged) :
    Within (Does Act installActs) (placePackage (H := H) path approved staged) := by
  unfold placePackage
  refine Within.bind Within.get fun c => ?_
  dsimp only
  split
  · exact (nowMs_does (by simp)).bind fun now =>
      Within.bind (Within.change_by Part.hold (by simp) fun s =>
      ⟨s.mine.pendingInstalls.insert s!"t{now}" path, rfl⟩) fun _ => Within.pure _
  · split
    · exact (emit_does rfl (by simp)).bind fun _ => putIn_does staged
    · exact putIn_does staged

theorem installAll_does {install : String → Program H (Except String Installing)}
    (hinstall : ∀ path, Within (Does Act installActs) (install path)) (dependent : HarnessId)
    (paths : List String) :
    Within (Does Act installActs) (installAll install dependent paths) := by
  induction paths with
  | nil => exact Within.pure _
  | cons path rest ih =>
    unfold installAll
    refine (hinstall path).bind fun r => ?_
    split
    · exact Within.pure _
    · exact Within.pure _
    · exact ih

theorem installFor_does (n : Nat) (path : String) (approved : Bool) :
    Within (Does Act installActs) (installFor (H := H) n path approved) := by
  induction n generalizing path approved with
  | zero => exact Within.pure _
  | succ n ih =>
    unfold installFor
    refine (nextRead_does (by simp)).bind fun k => ?_
    split
    · exact Within.pure _
    · refine Within.bind Within.get fun c => ?_
      split
      · exact Within.pure _
      · refine Within.bind Within.get fun c => ?_
        split
        · exact Within.pure _
        · refine (installAll_does (fun path => ih path false) _ _).bind fun r => ?_
          split
          · exact Within.pure _
          · refine Within.bind Within.get fun c => ?_
            split
            · exact Within.pure _
            · refine Within.bind Within.get fun c => ?_
              split
              · exact Within.pure _
              · exact placePackage_does _ _ _

theorem installResponse_does (r : Except String Installing) :
    Within (Does Act installActs) (installResponse (H := H) r) := by
  unfold installResponse
  split
  · exact Within.pure _
  · exact (broadcastEnvironment_does (by simp)).bind fun _ => Within.pure _
  · exact (broadcastEnvironment_does (by simp)).bind fun _ => Within.pure _

theorem installHarness_does (path : String) :
    Within (Does Act installActs) (installHarness (H := H) path) :=
  (installFor_does _ _ _).bind fun _ => installResponse_does _

theorem approveInstall_does (harness : HarnessId) (token : String) :
    Within (Does Act installActs) (approveInstall (H := H) harness token) := by
  unfold approveInstall
  refine Within.bind Within.get fun c => ?_
  split
  · exact Within.pure _
  · exact Within.bind (Within.change_by Part.hold (by simp) fun s =>
        ⟨s.mine.pendingInstalls.erase token, rfl⟩) fun _ =>
      (auditOn_does _ _ _ _ (by simp)).bind fun _ => (installFor_does _ _ _).bind fun _ =>
        installResponse_does _

theorem uninstallHarness_does (harness : HarnessId) :
    Within (Does Act installActs) (uninstallHarness (H := H) harness) := by
  unfold uninstallHarness
  intro s
  have hdesk : Does Act installActs s (s.own fun u => { u with
      focus := if u.focus = some harness then none else u.focus
      pinned := u.pinned.filter fun p => p ≠ harness }) :=
    Does.single (p := .desk) ⟨_, _, s.mine.touched, rfl⟩ (by simp)
  have hpackage : Does Act installActs (s.own fun u => { u with
      focus := if u.focus = some harness then none else u.focus
      pinned := u.pinned.filter fun p => p ≠ harness })
      { s.own (fun u => { u with
          focus := if u.focus = some harness then none else u.focus
          pinned := u.pinned.filter fun p => p ≠ harness }) with
        registry := s.registry.remove harness } :=
    Does.single (p := .package) ⟨_, rfl⟩ (by simp)
  have hrest : Within (Does Act installActs)
      (do writeLock; broadcastEnvironment; return .ok : Program H Response) :=
    (writeLock_does.more (by simp)).bind fun _ =>
      (broadcastEnvironment_does (by simp)).bind fun _ => Within.pure _
  exact (hdesk.trans hpackage).trans (hrest _)

/-! ### Evals -/

/-- An eval run: documents put back to nothing, and turns answered to their end inside it. -/
abbrev evalActs : List Part :=
  [.evals, .inlining, .rewrite] ++ .desk :: .take :: turnActs ++ queueInActs

/-- Documents stay loaded. -/
theorem Act.loaded {p : Part} {s t : Core H} (hp : p.plain = true) (h : Act p s t) {d : DocId}
    (hd : s.docs.exists? d = true) : t.docs.exists? d = true := by
  by_cases hw : p.writes = false
  · rw [(h.frame hp).docs hw]
    exact hd
  cases p <;> first | exact absurd rfl hw | skip
  case bring =>
    obtain ⟨_, _, _, _, _, _, _, _, _, _, _, htouch, _, _, rfl⟩ := h
    exact htouch.loaded d hd
  case write =>
    obtain ⟨_, _, _, _, _, htouch, _, rfl⟩ := h
    exact htouch.loaded d hd
  case rewrite =>
    obtain ⟨_, _, _, htouch, _, _, rfl⟩ := h
    exact htouch.loaded d hd
  case lock =>
    obtain ⟨_, _, htouch, _, rfl⟩ := h
    exact htouch.loaded d hd
  case exported =>
    obtain ⟨_, _, _, _, _, _, _, _, _, _, _, _, rfl⟩ := h
    exact (s.docs.ensure_touches _ _).loaded d hd
  case load =>
    obtain ⟨id, r, _, rfl⟩ := h
    unfold loadDocument
    rw [run_modify]
    dsimp only
    split
    · exact (s.docs.ensure_touches _ _).loaded d hd
    · exact hd

/-- What is loaded stays loaded. -/
theorem Core.Sound.loaded {s t : Core H} (hs : s.Sound) (h : Does Act ps s t)
    (hps : (fine ps).all Part.plain = true) {d : DocId} (hd : s.docs.exists? d = true) :
    t.docs.exists? d = true :=
  hs.keeps (I := fun t => t.docs.exists? d = true) h
    (fun p hp _ _ _ hact hd => hact.loaded (List.all_eq_true.1 hps p hp) hd) hd

/-- A document loaded, and nothing to be done inside a request: what holds between the cases of
a suite. -/
structure Core.Between (doc : DocId) (c : Core H) : Prop where
  sound : c.Sound
  loaded : c.docs.exists? doc = true
  outside : c.runInline = false

abbrev BetweenCases (doc : DocId) (ps : List Part) : Core H → Core H → Prop :=
  Keeping (Core.Between doc) (Does Act ps)

/-- Nothing else changes whether turns run inside a request. -/
theorem Core.Sound.outside {s t : Core H} (hs : s.Sound) (h : Does Act ps s t)
    (hps : (fine ps).all (fun p => p.plain && p ≠ .inlining) = true := by rfl) :
    t.runInline = s.runInline := by
  refine hs.keeps (I := fun t => t.runInline = s.runInline) h ?_ rfl
  intro p hp u v _ hact hu
  have hp := List.all_eq_true.1 hps p hp
  simp only [Bool.and_eq_true, decide_eq_true_eq] at hp
  exact ((hact.frame hp.1).inlining hp.2).trans hu

theorem evalTurn_does (text : String) :
    Within (Soundly evalActs) (evalTurn (H := H) text) := by
  unfold evalTurn
  refine Within.bind Within.get fun c => ?_
  have hinline : ∀ inlining : Bool, Within (Soundly evalActs)
      (modify fun c => { c with runInline := inlining } : Program H Unit) := fun inlining =>
    soundly (Within.change_by Part.inlining (by simp) fun _ => ⟨inlining, rfl⟩)
  refine (hinline true).bind fun _ => Within.bind ?_ fun _ => hinline _
  exact send_within (fun h => h.widen fun _ _ h => h.mono (by simp))
    ((drainFor_does _).widen fun _ _ h => h.mono (by simp)) _ _ _

/-- A document put back to nothing for a case of a suite, in a transcript of its own. -/
theorem cleaned_does (harness : HarnessId) (doc : DocId) {s : Core H}
    (hd : s.docs.exists? doc = true) (kind : DocKind) :
    Does Act evalActs s { s.own (fun u => { u with transcript := [], focus := some harness }) with
      docs := (s.docs.restore doc none).2.ensure doc kind
      providers := [] } := by
  have hchat : Does Act evalActs s (s.own fun u => { u with transcript := [] }) :=
    Does.single (p := .chat) ⟨[], s.mine.conversations, s.store.conversations,
      s.store.currentConversations, rfl⟩ (by simp)
  have hdesk : Does Act evalActs (s.own fun u => { u with transcript := [] })
      (s.own fun u => { u with transcript := [], focus := some harness }) :=
    Does.single (p := .desk) ⟨some harness, s.mine.pinned, s.mine.touched, rfl⟩ (by simp)
  have htouch : s.docs.Touches [doc] ((s.docs.restore doc none).2.ensure doc kind) :=
    (s.docs.restore_touches doc none).trans (DocStore.ensure_touches _ doc kind)
  have hsame : ∀ d, ((s.docs.restore doc none).2.ensure doc kind).exists? d = s.docs.exists? d := by
    intro d
    by_cases h : d = doc
    · rw [h, htouch.loaded doc hd, hd]
    · exact htouch.exists?_eq (by simpa using h)
  have hrewrite : Does Act evalActs
      (s.own fun u => { u with transcript := [], focus := some harness })
      { s.own (fun u => { u with transcript := [], focus := some harness }) with
        docs := (s.docs.restore doc none).2.ensure doc kind } :=
    Does.single (p := .rewrite) ⟨[doc], _, s.dag, htouch, .refl _ _, hsame, rfl⟩ (by simp)
  refine hchat.trans (hdesk.trans (hrewrite.trans ?_))
  exact Does.single (p := .note) ⟨s.audit, s.gateway, [], s.reads, [], Nat.le_refl _, by simp,
    by simp [Core.noted, Core.own]⟩ (by simp)

theorem evalCase_does (harness : HarnessId) (doc : DocId) (prompt : String) :
    Within (BetweenCases doc evalActs) (evalCase (H := H) harness doc prompt) := by
  unfold evalCase
  refine Within.bind Within.get fun c => Within.ite (fun _ => ?_) fun _ => Within.pure _
  refine Within.bind (fun s hs => ?_) fun _ => fun s hs => ?_
  · have hdoes := cleaned_does harness doc hs.loaded
      (((s.registry.get harness).map Installed.docKind).getD .crdt)
    exact ⟨hdoes, hs.sound.run hdoes, hs.sound.loaded hdoes rfl hs.loaded, hs.outside⟩
  · obtain ⟨hdoes, hend⟩ := evalTurn_does prompt s hs.sound
    exact ⟨hdoes, hend, hs.sound.loaded hdoes rfl hs.loaded, hs.outside⟩

/-- Nothing is to be done inside a request. -/
def Core.Steady (c : Core H) : Prop :=
  c.Sound ∧ c.runInline = false

abbrev Steadily (ps : List Part) : Core H → Core H → Prop :=
  Keeping Core.Steady (Does Act ps)

theorem steadily (h : Within (Does Act ps) m)
    (hps : (fine ps).all (fun p => p.plain && p ≠ .inlining) = true := by rfl)
    (hsub : ps ⊆ evalActs := by simp) : Within (Steadily evalActs) m := by
  intro s hs
  exact ⟨(h s).mono hsub, hs.1.run (h s), (hs.1.outside (h s) hps).trans hs.2⟩

/-- The cases of a suite, one after the other. -/
theorem evalCases_does (harness : HarnessId) (doc : DocId) :
    Within (BetweenCases doc evalActs)
      (do
        match H.suite (← nextRead) harness with
        | .error e => return .error e
        | .ok prompts =>
          prompts.forM fun prompt => evalCase harness doc prompt
          return .ok prompts.length : Program H (Except String Nat)) := by
  refine Within.bind (fun s hs => ?_) fun n => ?_
  · have hread : Does Act evalActs s (nextRead.run s).2 := nextRead_does (by simp) s
    exact ⟨hread, hs.sound.run hread, hs.loaded, hs.outside⟩
  · split
    · exact Within.pure _
    · exact Within.bind (Within.forM fun prompt _ => evalCase_does harness doc prompt)
        fun _ => Within.pure _

theorem runSuite_does (harness : HarnessId) :
    Within (Steadily evalActs) (runSuite (H := H) harness) := by
  unfold runSuite
  refine Within.bind Within.get fun c => ?_
  split
  · exact Within.pure _
  · intro s hs
    have hopen : Within (Steadily evalActs) (docFor (H := H) harness) := steadily (docFor_does harness)
    obtain ⟨hdoc, hmid⟩ := hopen s hs
    rw [run_bind]
    split
    · exact ⟨hdoc, hmid⟩
    · next doc hsome =>
      obtain ⟨hdoes, hend⟩ := evalCases_does harness doc _ ⟨hmid.1, (docFor_some hsome).2, hmid.2⟩
      exact ⟨hdoc.trans hdoes, hend.sound, hend.outside⟩

theorem runEvals_does (harness : HarnessId) :
    Within (Steadily evalActs) (runEvals (H := H) harness) := by
  have hmark : ∀ (transcript : List ChatMessage) (running : Bool), Within (Steadily evalActs)
      (modify fun c => { c.own (fun u => { u with transcript := transcript }) with
        evalsRunning := running } : Program H Unit) := fun transcript running =>
    steadily ((fun s => (Does.single (p := .chat)
        ⟨transcript, s.mine.conversations, s.store.conversations, s.store.currentConversations,
          rfl⟩ (by simp)).trans (Does.single (p := .evals) ⟨running, rfl⟩ (by simp))) :
      Within (Does Act [.chat, .evals]) _)
  unfold runEvals
  refine Within.bind Within.get fun c => (hmark [] true).bind fun _ =>
    (runSuite_does harness).bind fun r => (hmark _ false).bind fun _ => ?_
  split <;> exact Within.pure _

/-! ### The dispatch -/

/-- The kinds of acts a request may go by. -/
def requestActs (H : Host) : Request → List Part
  | .setFocus _ | .setPinned .. => [.note, .desk]
  | .setHarnessEnabled .. => [.note, .package]
  | .installHarness _ | .approveInstall .. | .uninstallHarness _ => installActs
  | .sendMessage .. | .continueAnswer _ => sendActs
  | .cancelTurn _ => stopActs
  | .newConversation | .selectConversation _ | .renameConversation .. => chatActs
  | .deleteConversation _ => deleteActs
  | .approve _ granted => if granted then approveActs else declinedActs
  | .callTool .. => callActs
  | .getWidgetView .. | .presence .. | .openDoc _ | .getDocJson _ => gatherActs
  | .widgetEvent .. | .harnessEvent .. | .writeDoc .. => eventActs
  | .produceArtifact e => exportActs (e.blobDoc H)
  | .docSync .. => syncActs
  | .docSyncEnd .. => [.note, .unreplica]
  | .undo | .redo | .dropRun _ => strictActs
  | .previewContext _ => [.note, .record, .bring, .profile]
  | .createUser .. => [.note, .enrol]
  | .setUserRoles .. => [.note, .roles]
  | .disableUser .. => [.note, .disable]
  | .createWorkspace _ => [.note, .found]
  | .setMember .. | .removeMember .. | .setAgentWrites .. => memberActs
  | .selectWorkspace .. => selectActs
  | .setDocumentAccess doc _ => [.note, .tighten doc]
  | .runEvals _ => evalActs
  | _ => [.note]

theorem note_mem_requestActs (req : Request) : Part.note ∈ requestActs H req := by
  cases req
  case approve id granted => cases granted <;> simp [requestActs]
  all_goals simp [requestActs]

/-- A request, from a queue nothing is left to do in: outside evals. -/
theorem dispatch_does {req : Request} (hreq : ∀ harness, req ≠ .runEvals harness) :
    Within (Idly (requestActs H req)) (dispatch (H := H) req) := by
  cases req
  case runEvals harness => exact absurd rfl (hreq harness)
  case sendMessage text conversation attachments =>
    have hsend : Within (Idly sendActs) (send (H := H) conversation text attachments) :=
      send_within (fun h => idly h (by simp)) drain_idle _ _ _
    exact hsend.bind fun _ => Within.get.bind fun _ => Within.pure _
  case cancelTurn conversation =>
    exact (cancel_does conversation).bind fun _ => Within.get.bind fun _ => Within.pure _
  case continueAnswer conversation =>
    exact (continueAnswer_does conversation).bind fun _ => Within.get.bind fun _ => Within.pure _
  case deleteConversation id => exact deleteConversation_does id
  case approve id granted =>
    cases granted with
    | false => exact approve_declines id
    | true => exact approve_does id
  case selectWorkspace workspace reason => exact selectWorkspace_does workspace reason
  all_goals refine idly (soundly ?_) (by simp [requestActs])
  case setNetworkMode mode =>
    refine Within.bind Within.get fun c => ?_
    dsimp only
    refine Within.bind (gateway_does _ (by simp [requestActs])) fun _ => ?_
    split
    · exact (notice_does _ _ (by simp [requestActs])).bind fun _ =>
        (broadcastEnvironment_does (by simp [requestActs])).bind fun _ => Within.pure _
    · exact (broadcastEnvironment_does (by simp [requestActs])).bind fun _ => Within.pure _
  case setFocus harness => exact setFocus_does harness
  case setPinned harness pinned => exact setPinned_does harness pinned
  case setHarnessEnabled harness enabled =>
    exact Within.bind (Within.change_by Part.package (by simp [requestActs]) (fun s => ⟨_, rfl⟩))
      fun _ => (broadcastEnvironment_does (by simp [requestActs])).bind fun _ => Within.pure _
  case installHarness path => exact installHarness_does path
  case approveInstall harness token => exact approveInstall_does harness token
  case uninstallHarness harness => exact uninstallHarness_does harness
  case newConversation => exact newConversation_does
  case selectConversation id => exact selectConversation_does id
  case renameConversation id title => exact renameConversation_does id title
  case callTool tool params => exact (callTool_does tool params .user).bind fun _ => Within.pure _
  case getWidgetView harness view => exact getWidgetView_does harness view
  case widgetEvent harness view event => exact harnessEvent_does harness view _
  case harnessEvent harness view payload => exact harnessEvent_does harness view payload
  case presence board peer => exact (presence_does board peer).more (by simp [requestActs])
  case openDoc harness => exact (openDoc_does harness).more (by simp [requestActs])
  case getDocJson harness => exact (getDocJson_does harness).more (by simp [requestActs])
  case produceArtifact e =>
    refine (produceArtifact_does e).bind fun r => ?_
    split <;> exact Within.pure _
  case getDocBlob doc => exact getDocBlob_does doc (by simp [requestActs])
  case writeDoc harness view doc commit => exact writeDoc_does harness view doc commit
  case docSync doc peer message => exact docSync_does doc peer message
  case docSyncEnd doc peer => exact docSyncEnd_does doc peer (by simp [requestActs])
  case undo => exact undo_does
  case redo => exact redo_does
  case dropRun run => exact dropRun_does run
  case previewContext budget => exact previewContext_does budget
  case createUser email roles => exact createUser_does email roles
  case setUserRoles user roles => exact setUserRoles_does user roles
  case disableUser user disabled => exact disableUser_does user disabled
  case createWorkspace name => exact createWorkspace_does name
  case setMember workspace principal level => exact setMember_does workspace principal level
  case removeMember workspace principal => exact removeMember_does workspace principal
  case setAgentWrites workspace mode => exact setAgentWrites_does workspace mode
  case setDocumentAccess doc members => exact setDocumentAccess_does doc members
  all_goals first | exact Within.pure _ | exact Within.get.bind fun _ => Within.pure _

end LocalSpace
