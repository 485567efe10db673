import LocalSpace.Sample
import LocalSpace.Steps

/-!
# Whose replicas are whose

A replica of a document is kept under the name its client gave it, for whoever last sent a
message under that name. Beside Core runs the list of those who sent the messages a replica's
sync state was built from (`Traced`): where every message comes under a name that is its sender's
or nobody's, the one who built a state is the one its patches go to, and nobody else's message
under the name changes or ends it (`answers_own`). Core does not ask whose a name is, and with
one message under another's name both are lost (`peer_taken`).
-/

namespace LocalSpace

open Library

variable {H : Host} {ps : List Part} {s t : Core H} {doc : DocId} {peer : String}

namespace Core

/-! ### Replicas as they are sent to -/

@[simp] theorem replica_setReplicas_self (c : Core H) (doc : DocId) (peer : String)
    (replicas : Table String (ReplicaSync H)) :
    (c.setReplicas doc replicas).replica doc peer = replicas.lookup peer := by
  unfold replica replicasOf setReplicas
  rw [AList.lookup_insert]
  rfl

theorem replica_setReplicas_ne (c : Core H) {doc d : DocId} (peer : String)
    (replicas : Table String (ReplicaSync H)) (h : d ≠ doc) :
    (c.setReplicas doc replicas).replica d peer = c.replica d peer := by
  unfold replica replicasOf setReplicas
  rw [AList.lookup_insert_ne h]

theorem replica_of_syncStates (h : t.syncStates = s.syncStates) (doc : DocId) (peer : String) :
    t.replica doc peer = s.replica doc peer := by
  unfold replica replicasOf
  rw [h]

/-- Every replica is whose it was, and every patch sent went to the one whose replica it is of. -/
structure Told (s t : Core H) : Prop where
  users : ∀ doc peer,
    (t.replica doc peer).map ReplicaSync.user = (s.replica doc peer).map ReplicaSync.user
  sent : ∃ more, t.events = s.events ++ more ∧ ∀ e ∈ more, ∀ doc peer message,
    e.event = .docPatch doc peer message →
      ∃ r, s.replica doc peer = some r ∧ e.addressee = .user r.user

theorem Told.refl (s : Core H) : s.Told s :=
  ⟨fun _ _ => rfl, [], by simp, by simp⟩

/-- Whose a replica is after patches, it was before them. -/
theorem Told.replica_before (h : s.Told t) {r : ReplicaSync H} (hr : t.replica doc peer = some r) :
    ∃ r', s.replica doc peer = some r' ∧ r'.user = r.user := by
  have husers := h.users doc peer
  rw [hr] at husers
  obtain ⟨r', hr', huser⟩ := Option.map_eq_some_iff.1 husers.symm
  exact ⟨r', hr', huser⟩

theorem Told.trans {u : Core H} (h : s.Told t) (h' : t.Told u) : s.Told u where
  users doc peer := (h'.users doc peer).trans (h.users doc peer)
  sent := by
    obtain ⟨more, hmore, hall⟩ := h.sent
    obtain ⟨more', hmore', hall'⟩ := h'.sent
    refine ⟨more ++ more', by rw [hmore', hmore, List.append_assoc], fun e he doc peer message hev => ?_⟩
    rcases List.mem_append.1 he with he | he
    · exact hall e he doc peer message hev
    · obtain ⟨r, hr, haddr⟩ := hall' e he doc peer message hev
      obtain ⟨r', hr', huser⟩ := h.replica_before hr
      exact ⟨r', hr', huser ▸ haddr⟩

theorem told_of_eq (more : List Emitted) (hreplicas : t.syncStates = s.syncStates)
    (hevents : t.events = s.events ++ more) (hmore : ∀ e ∈ more, e.event.isPatch = false) :
    s.Told t where
  users doc peer := by rw [replica_of_syncStates hreplicas]
  sent := by
    refine ⟨more, hevents, fun e he doc peer message hev => ?_⟩
    have := hmore e he
    rw [hev] at this
    cases this

end Core

open LocalSpace.Core

theorem syncReplica_told (doc : DocId) (peer : String) :
    Within Told (syncReplica (H := H) doc peer) := by
  intro s
  unfold syncReplica
  rw [run_bind, run_get]
  dsimp only
  split
  · exact Told.refl s
  · next replica hreplica =>
    have hmoved : s.Told (s.setReplicas doc ((s.replicasOf doc).insert peer
        { replica with state := (s.docs.syncMessage doc replica.state).2 })) := by
      refine ⟨fun d p => ?_, [], by simp [Core.setReplicas], by simp⟩
      by_cases hd : d = doc
      · subst hd
        rw [replica_setReplicas_self]
        by_cases hp : p = peer
        · subst hp
          rw [AList.lookup_insert, hreplica]
          rfl
        · rw [AList.lookup_insert_ne hp]
          rfl
      · rw [replica_setReplicas_ne _ _ _ hd]
    rw [run_bind, run_modify]
    dsimp only
    split
    · exact hmoved
    · next message _ =>
      refine ⟨hmoved.users, _, rfl, ?_⟩
      simp only [List.mem_singleton, forall_eq]
      intro d p m hev
      cases hev
      exact ⟨replica, hreplica, rfl⟩

/-- A kind of act that takes no replica and puts none back. -/
def Part.telling : Part → Bool
  | .replica | .unreplica | .finish => false
  | _ => true

theorem Act.told {p : Part} (ha : Act p s t) (hp : p.telling = true) : s.Told t := by
  by_cases hpatch : p = .patch
  · subst hpatch
    obtain ⟨doc, peer, rfl⟩ := ha
    exact syncReplica_told doc peer s
  · by_cases henter : p = .enter
    · subst henter
      obtain ⟨caller, rfl⟩ := ha
      have hcame := s.came caller
      exact told_of_eq [] hcame.replicas (by rw [List.append_nil]; exact hcame.events)
        (by simp)
    · have hplain : p.plain = true := by cases p <;> simp_all [Part.plain, Part.telling]
      have hconnects : p.connects = false := by cases p <;> simp_all [Part.connects, Part.telling]
      have hframe := ha.frame hplain
      obtain ⟨more, hevents, hmore⟩ := hframe.events
      exact told_of_eq _ (hframe.replicas hconnects) hevents (hmore hpatch)

/-- What takes no replica and puts none back tells each as whose it is. -/
theorem told_of_does (h : Does Act ps s t) (hps : ps.all Part.telling = true) :
    s.Told t :=
  h.preserves (I := s.Told) (fun p hp _ _ ha hu => hu.trans (ha.told (List.all_eq_true.1 hps p hp)))
    (Told.refl s)

theorem Core.Sound.told (hs : s.Sound) (h : Does Act ps s t)
    (hps : (fine ps).all Part.telling = true := by rfl) : s.Told t :=
  told_of_does (hs.opened h) hps

/-! ### A message from a replica -/

/-- A replica is a user's, and what else there is of replicas was there before. -/
structure Core.PutBack (s t : Core H) (doc : DocId) (peer : String) (user : UserId) : Prop where
  theirs : ∃ r, t.replica doc peer = some r ∧ r.user = user
  others : ∀ d p r, ¬(d = doc ∧ p = peer) → t.replica d p = some r → s.replica d p = some r
  events : t.events = s.events

theorem lookup_withRoom {replicas : Table String (ReplicaSync H)} {r : ReplicaSync H}
    (h : (withRoom replicas).lookup peer = some r) : replicas.lookup peer = some r := by
  unfold withRoom at h
  split at h
  · split at h
    · next oldest _ =>
      by_cases hp : peer = oldest
      · subst hp
        rw [AList.lookup_erase] at h
        cases h
      · rwa [AList.lookup_erase_ne hp] at h
    · exact h
  · exact h

theorem receiveSync_putBack (doc : DocId) (peer : String) (message : Bytes) (s : Core H) :
    s.PutBack ((receiveSync doc peer message).run s).2 doc peer s.active.user := by
  obtain ⟨taken, htaken, hrest, hevents, hactive⟩ : ∃ taken : Core H,
      ((takeReplica doc peer).run s).2 = taken ∧
      (∀ d p r, ¬(d = doc ∧ p = peer) → taken.replica d p = some r → s.replica d p = some r) ∧
      taken.events = s.events ∧ taken.active = s.active := by
    refine ⟨_, rfl, ?_⟩
    unfold takeReplica
    rw [run_bind, run_get]
    dsimp only
    split
    · exact ⟨fun _ _ _ _ h => h, rfl, rfl⟩
    · rw [run_bind, run_modify]
      refine ⟨fun d p r hne h => ?_, rfl, rfl⟩
      by_cases hd : d = doc
      · subst hd
        have h := (replica_setReplicas_self s d p _).symm.trans h
        rwa [AList.lookup_erase_ne fun hp => hne ⟨rfl, hp⟩] at h
      · exact (replica_setReplicas_ne s p _ hd).symm.trans h
  unfold receiveSync
  rw [run_bind, htaken, run_bind, run_get]
  dsimp only
  rw [run_bind, run_modify, run_bind]
  unfold putReplica
  rw [run_modify, run_pure]
  dsimp only
  refine ⟨⟨_, (replica_setReplicas_self _ doc peer _).trans (AList.lookup_insert _),
    congrArg Caller.user hactive⟩, fun d p r hne h => ?_, hevents⟩
  by_cases hd : d = doc
  · subst hd
    have h := (replica_setReplicas_self _ d p _).symm.trans h
    rw [AList.lookup_insert_ne fun hp => hne ⟨rfl, hp⟩] at h
    exact hrest d p r hne (lookup_withRoom h)
  · exact hrest d p r hne ((replica_setReplicas_ne _ p _ hd).symm.trans h)

/-- A message that is let through: the replica is put back as its sender's, and told with the
others. -/
theorem docSync_through {c : Core H} (doc : DocId) (peer : String)
    (hviewer : c.active.isViewer = false) (hmay : c.may doc .edit = true) (message : Bytes) :
    ∃ put : Core H, c.PutBack put doc peer c.active.user ∧
      put.Told ((docSync doc peer message).run c).2 := by
  refine ⟨_, receiveSync_putBack doc peer message c, ?_⟩
  unfold docSync
  rw [run_bind, run_get]
  dsimp only
  rw [if_neg (by simp [hviewer])]
  split
  · next hcheck => simp [Core.may, AccessControl.allows, hcheck, Except.toBool] at hmay
  · rw [run_bind]
    have htold : ∀ {m : Program H Response}, Within (Does Act looseActs) m →
        ∀ u : Core H, u.Told (m.run u).2 := fun hm u => told_of_does (hm u) rfl
    have hR := Rewriting.unchecked (H := H) doc
    split
    · exact Told.refl _
    · split
      · exact htold (Within.get.bind fun _ => (commitSurface_within hR _ _ _).bind fun _ =>
          (docChanged_within hR).bind fun _ => Within.pure _) _
      · exact htold ((hR.within (syncReplica_does _ _ (by simp))).bind fun _ => Within.pure _) _

/-- A message that is not let through tells nobody anything. -/
theorem docSync_refused {c : Core H} (doc : DocId) (peer : String)
    (h : (!c.active.isViewer && c.may doc .edit) = false)
    (message : Bytes) : c.Told ((docSync doc peer message).run c).2 ∧
      ∀ d p, ((docSync doc peer message).run c).2.replica d p = c.replica d p := by
  unfold docSync
  rw [run_bind, run_get]
  dsimp only
  split
  · have hnote := (refuseReadOnlyWrite_does doc (by simp) : Within (Does Act [.note]) _) c
    refine ⟨told_of_does hnote rfl, replica_of_syncStates ?_⟩
    exact hnote.frame Core.syncStates fun p hp _ _ ha => by
      rw [List.mem_singleton.1 hp] at ha
      exact (ha.frame rfl).replicas rfl
  · next hviewer =>
    split
    · exact ⟨Told.refl c, fun _ _ => rfl⟩
    · next hcheck =>
      simp [Core.may, AccessControl.allows, hcheck, Except.toBool] at h
      exact absurd h hviewer

/-- A replica that closed is gone, and no other. -/
theorem docSyncEnd_replica (c : Core H) (doc : DocId) (peer : String) {d : DocId} {p : String}
    {r : ReplicaSync H} (h : ((docSyncEnd doc peer).run c).2.replica d p = some r) :
    c.replica d p = some r ∧ ¬(d = doc ∧ p = peer) := by
  unfold docSyncEnd at h
  rw [run_bind, run_modify, run_pure] at h
  dsimp only at h
  split at h
  · next hempty =>
    by_cases hd : d = doc
    · subst hd
      simp [Core.replica, Core.replicasOf, AList.lookup_erase] at h
    · refine ⟨?_, fun hboth => hd hboth.1⟩
      unfold Core.replica Core.replicasOf at h ⊢
      rwa [AList.lookup_erase_ne hd] at h
  · by_cases hd : d = doc
    · subst hd
      rw [replica_setReplicas_self] at h
      by_cases hp : p = peer
      · subst hp
        rw [AList.lookup_erase] at h
        cases h
      · rw [AList.lookup_erase_ne hp] at h
        exact ⟨h, fun hboth => hp hboth.2⟩
    · rw [replica_setReplicas_ne _ _ _ hd] at h
      exact ⟨h, fun hboth => hd hboth.1⟩

/-! ### Who built what -/

/-- Who sent the messages a replica's sync state was built from, by document and name. -/
abbrev Builders := DocId → String → List UserId

namespace Core

/-- Whether a caller's message for a document's replica is let through. -/
def syncs (c : Core H) (caller : Caller) (doc : DocId) : Bool :=
  !caller.isSystem &&
    (!(c.entered caller).active.isViewer && (c.entered caller).may doc .edit)

/-- A message let through builds on the sync state there is under its name, or starts afresh. -/
def builtAfter (c : Core H) (built : Builders) : Message → Builders
  | .request caller (.docSync doc peer _) => fun d p =>
    if c.syncs caller doc = true ∧ d = doc ∧ p = peer then
      (if (c.replica d p).isSome then built d p else []) ++ [caller.user]
    else built d p
  | _ => built

/-- A replica's message, and its end, come under a name that is the caller's or nobody's. -/
def OwnName (c : Core H) : Message → Prop
  | .request caller (.docSync doc peer _) =>
    c.syncs caller doc = true → (c.replica doc peer).all (fun r => r.user = caller.user) = true
  | .request caller (.docSyncEnd doc peer) =>
    caller.isSystem = false → (c.replica doc peer).all (fun r => r.user = caller.user) = true
  | _ => True

instance (c : Core H) : (m : Message) → Decidable (c.OwnName m)
  | .request _ req => by
    cases req
    all_goals
      unfold OwnName
      dsimp only
      infer_instance
  | .system _ | .read .. | .posted _ | .restart .. => .isTrue trivial

end Core

/-- Core, and who built its replicas' sync states. -/
structure Traced (H : Host) where
  core : Core H
  built : Builders

namespace Traced

/-- Core with its messages, and who built what beside it. -/
@[grind =]
def system (H : Host) : System (Traced H) Message where
  step t m := ⟨t.core.step m, t.core.builtAfter t.built m⟩
  enabled t m := t.core.Enabled m

/-- A start, where nobody has built anything. -/
@[grind =]
def start (cfg : Config) (packages : List Staged) : Traced H :=
  ⟨Core.start cfg packages, fun _ _ => []⟩

/-- The events a message is answered with. -/
@[grind =]
def sent (t : Traced H) (m : Message) : List Emitted :=
  (t.core.step m).events.drop t.core.events.length

/-- **Replicas answer only for themselves**: a patch sent goes to the one who alone built the
state it is of, and a message or an end under a name changes no state somebody else built. -/
structure Answers (t : Traced H) (m : Message) : Prop where
  patches : ∀ e ∈ t.sent m, ∀ doc peer message, e.event = .docPatch doc peer message →
    ∃ u, e.addressee = .user u ∧ u ∈ t.core.builtAfter t.built m doc peer ∧
      ∀ v ∈ t.core.builtAfter t.built m doc peer, v = u
  others : ∀ caller doc peer, (m = .request caller (.docSyncEnd doc peer) ∨
      ∃ message, m = .request caller (.docSync doc peer message)) →
    ∀ r, t.core.replica doc peer = some r → ∀ u ∈ t.built doc peer, u ≠ caller.user →
      (t.core.step m).replica doc peer = some r

/-- Each replica is the one user's who built its state. -/
def Owned (t : Traced H) : Prop :=
  ∀ doc peer r, t.core.replica doc peer = some r →
    r.user ∈ t.built doc peer ∧ ∀ v ∈ t.built doc peer, v = r.user

variable {t : Traced H} {m : Message}

/-- From a state whose replicas are owned by who will have built them, telling replicas keeps
them so, and what it sends goes to who built what it is of. -/
private theorem told_owned (put : Core H) (hput : Owned ⟨put, t.core.builtAfter t.built m⟩)
    (hevents : put.events.length ≤ t.core.events.length) (htold : put.Told (t.core.step m)) :
    Owned ((system H).step t m) ∧
      ∀ e ∈ t.sent m, ∀ doc peer message, e.event = .docPatch doc peer message →
        ∃ u, e.addressee = .user u ∧ u ∈ t.core.builtAfter t.built m doc peer ∧
          ∀ v ∈ t.core.builtAfter t.built m doc peer, v = u := by
  refine ⟨fun doc peer r hr => ?_, fun e he doc peer message hev => ?_⟩
  · obtain ⟨r', hr', huser⟩ := htold.replica_before hr
    rw [← huser]
    exact hput doc peer r' hr'
  · obtain ⟨more, hmore, hall⟩ := htold.sent
    unfold sent at he
    rw [hmore, List.drop_append, List.drop_eq_nil_of_le hevents, List.nil_append] at he
    obtain ⟨r, hr, haddr⟩ := hall e (List.mem_of_mem_drop he) doc peer message hev
    exact ⟨r.user, haddr, hput doc peer r hr⟩

theorem entered_replica (c : Core H) (caller : Caller) (doc : DocId) (peer : String) :
    (c.entered caller).replica doc peer = c.replica doc peer :=
  replica_of_syncStates (c.came caller).replicas doc peer

private theorem step_docSync (ht : t.Owned) {caller : Caller} {doc : DocId} {peer : String}
    {message : Bytes} (hown : t.core.OwnName (.request caller (.docSync doc peer message))) :
    Owned ((system H).step t (.request caller (.docSync doc peer message))) ∧
      t.Answers (.request caller (.docSync doc peer message)) := by
  let c := t.core.entered caller
  have hentered := (t.core.came caller)
  have hsame : t.core.syncs caller doc = false → t.core.builtAfter t.built
      (.request caller (.docSync doc peer message)) = t.built := fun h => by
    unfold Core.builtAfter
    simp [h]
  by_cases hsystem : caller.isSystem = true
  · -- nobody: nothing happens
    have hstep := Core.step_request_system (c := t.core) hsystem (.docSync doc peer message)
    have hsyncs : t.core.syncs caller doc = false := by simp [Core.syncs, hsystem]
    obtain ⟨howned, hpatches⟩ := told_owned (t := t)
      (m := .request caller (.docSync doc peer message)) t.core
      (by rw [hsame hsyncs]; exact ht) (Nat.le_refl _) (by rw [hstep]; exact Told.refl _)
    refine ⟨howned, hpatches, ?_⟩
    intro caller' doc' peer' _ r hr _ _ _
    rw [hstep]
    exact hr
  · rw [Bool.not_eq_true] at hsystem
    have hstep : t.core.step (.request caller (.docSync doc peer message)) =
        ((docSync doc peer message).run c).2 := Core.step_request hsystem _
    have hcreplica : ∀ d p, c.replica d p = t.core.replica d p :=
      fun d p => entered_replica t.core caller d p
    have hevents : c.events = t.core.events := hentered.events
    cases hsyncs : t.core.syncs caller doc with
    | false =>
      have hrefused := docSync_refused (c := c) doc peer
        (by simpa [Core.syncs, hsystem] using hsyncs) message
      obtain ⟨howned, hpatches⟩ := told_owned (t := t)
        (m := .request caller (.docSync doc peer message)) c
        (by
          rw [hsame hsyncs]
          intro d p r hr
          exact ht d p r ((hcreplica d p).symm.trans hr))
        (by rw [hevents]) (by rw [hstep]; exact hrefused.1)
      refine ⟨howned, hpatches, ?_⟩
      intro caller' doc' peer' _ r hr _ _ _
      rw [hstep, hrefused.2, hcreplica]
      exact hr
    | true =>
      have hlet := hsyncs
      simp only [Core.syncs, hsystem, Bool.not_false, Bool.true_and, Bool.and_eq_true,
        Bool.not_eq_true'] at hlet
      obtain ⟨put, hput, htold⟩ := docSync_through doc peer hlet.1 hlet.2 message
      have hcaller : c.active.user = caller.user := congrArg Caller.user hentered.active
      have hmine : ∀ r, t.core.replica doc peer = some r → r.user = caller.user := fun r hr => by
        have := hown hsyncs
        rw [hr] at this
        simpa using this
      obtain ⟨howned, hpatches⟩ := told_owned (t := t)
        (m := .request caller (.docSync doc peer message)) put
        (by
          intro d p r hr
          unfold Core.builtAfter
          dsimp only
          by_cases hdp : d = doc ∧ p = peer
          · obtain ⟨rfl, rfl⟩ := hdp
            obtain ⟨r', hr', huser⟩ := hput.theirs
            obtain rfl : r' = r := Option.some.inj (hr'.symm.trans hr)
            rw [if_pos ⟨hsyncs, rfl, rfl⟩, huser, hcaller]
            refine ⟨by simp, fun v hv => ?_⟩
            rcases List.mem_append.1 hv with hv | hv
            · split at hv
              · next hsome =>
                obtain ⟨old, hold⟩ := Option.isSome_iff_exists.1 hsome
                rw [(ht d p old hold).2 v hv, hmine old hold]
              · cases hv
            · exact List.mem_singleton.1 hv
          · rw [if_neg fun h => hdp h.2]
            exact ht d p r ((hcreplica d p).symm.trans (hput.others d p r hdp hr)))
        (by rw [hput.events, hevents]) (by rw [hstep]; exact htold)
      refine ⟨howned, hpatches, ?_⟩
      rintro caller' doc' peer' (h | ⟨message', h⟩) r hr u hu hne
      · cases h
      · cases h
        exact absurd (((ht doc peer r hr).2 u hu).trans (hmine r hr)) hne

private theorem step_docSyncEnd (ht : t.Owned) {caller : Caller} {doc : DocId} {peer : String}
    (hown : t.core.OwnName (.request caller (.docSyncEnd doc peer))) :
    Owned ((system H).step t (.request caller (.docSyncEnd doc peer))) ∧
      t.Answers (.request caller (.docSyncEnd doc peer)) := by
  by_cases hsystem : caller.isSystem = true
  · have hstep := Core.step_request_system (c := t.core) hsystem (.docSyncEnd doc peer)
    obtain ⟨howned, hpatches⟩ := told_owned (t := t) (m := .request caller (.docSyncEnd doc peer))
      t.core ht (Nat.le_refl _) (by rw [hstep]; exact Told.refl _)
    refine ⟨howned, hpatches, ?_⟩
    intro caller' doc' peer' _ r hr _ _ _
    rw [hstep]
    exact hr
  · rw [Bool.not_eq_true] at hsystem
    have hstep : t.core.step (.request caller (.docSyncEnd doc peer)) =
        ((docSyncEnd doc peer).run (t.core.entered caller)).2 := Core.step_request hsystem _
    have hevents : (t.core.step (.request caller (.docSyncEnd doc peer))).events =
        t.core.events := by
      rw [hstep, ← (t.core.came caller).events]
      unfold docSyncEnd
      rw [run_bind, run_modify, run_pure]
      dsimp only
      split <;> rfl
    obtain ⟨howned, hpatches⟩ := told_owned (t := t) (m := .request caller (.docSyncEnd doc peer))
      (t.core.step (.request caller (.docSyncEnd doc peer)))
      (by
        intro d p r hr
        rw [hstep] at hr
        have := (docSyncEnd_replica _ doc peer hr).1
        rw [entered_replica] at this
        exact ht d p r this)
      (by rw [hevents]) (Told.refl _)
    refine ⟨howned, hpatches, ?_⟩
    rintro caller' doc' peer' (h | ⟨message', h⟩) r hr u hu hne
    · cases h
      have hmine := hown hsystem
      rw [hr] at hmine
      exact absurd (((ht doc peer r hr).2 u hu).trans (by simpa using hmine)) hne
    · cases h

/-- Every other message tells the replicas there are. -/
theorem step_told {c : Core H} (hc : c.Ready) (he : c.Enabled m)
    (hrestart : ∀ cfg packages, m ≠ .restart cfg packages)
    (hsync : ∀ caller doc peer message, m ≠ .request caller (.docSync doc peer message))
    (hend : ∀ caller doc peer, m ≠ .request caller (.docSyncEnd doc peer)) :
    c.Told (c.step m) := by
  have hdoes := Core.step_does hc he hrestart
  have hready := (hc.opened m).1
  have hopened : c.Told (c.opened m) := by
    cases m with
    | request caller req =>
      unfold Core.opened
      dsimp only
      split
      · exact Told.refl c
      · have hcame := c.came caller
        exact told_of_eq [] hcame.replicas (by rw [List.append_nil]; exact hcame.events)
          (by simp)
    | system | read | posted | restart =>
      exact told_of_eq [] rfl (List.append_nil _).symm (by simp)
  refine hopened.trans ?_
  cases m with
  | restart cfg packages => exact absurd rfl (hrestart cfg packages)
  | system req => exact hready.told hdoes
  | read i step => exact hready.told hdoes
  | posted i => exact hready.told hdoes
  | request caller req =>
    cases req
    case docSync doc peer message => exact absurd rfl (hsync caller doc peer message)
    case docSyncEnd doc peer => exact absurd rfl (hend caller doc peer)
    case approve id granted => cases granted <;> exact hready.told hdoes
    all_goals exact hready.told hdoes

theorem new_replica (cfg : Config) (db : Store) (dag : Dag) (reads : Nat)
    (packages : List Staged) (doc : DocId) (peer : String) :
    (Core.new cfg db dag reads packages : Core H).replica doc peer = none := by
  have htold := (Core.fresh_ready cfg db dag reads).1.told
    (Core.new_does cfg db dag reads packages : Does Act newActs (fresh cfg db dag reads : Core H) _)
  have husers := htold.users doc peer
  rw [show (fresh cfg db dag reads : Core H).replica doc peer = none from rfl] at husers
  exact Option.map_eq_none_iff.1 husers

theorem step_owned (hready : t.core.Ready) (ht : t.Owned) (he : t.core.Enabled m)
    (hown : t.core.OwnName m) : Owned ((system H).step t m) ∧ t.Answers m := by
  by_cases hsync : ∃ caller doc peer message, m = .request caller (.docSync doc peer message)
  · obtain ⟨caller, doc, peer, message, rfl⟩ := hsync
    exact step_docSync ht hown
  by_cases hend : ∃ caller doc peer, m = .request caller (.docSyncEnd doc peer)
  · obtain ⟨caller, doc, peer, rfl⟩ := hend
    exact step_docSyncEnd ht hown
  have hothers : ∀ caller doc peer, (m = .request caller (.docSyncEnd doc peer) ∨
      ∃ message, m = .request caller (.docSync doc peer message)) → False := by
    rintro caller doc peer (h | ⟨message, h⟩)
    · exact hend ⟨caller, doc, peer, h⟩
    · exact hsync ⟨caller, doc, peer, message, h⟩
  have hbuilt : t.core.builtAfter t.built m = t.built := by
    unfold Core.builtAfter
    split
    · exact absurd ⟨_, _, _, _, rfl⟩ hsync
    · rfl
  by_cases hrestart : ∃ cfg packages, m = .restart cfg packages
  · obtain ⟨cfg, packages, rfl⟩ := hrestart
    have htold := (Core.fresh_ready cfg t.core.store t.core.dag t.core.reads).1.told
      (Core.new_does cfg t.core.store t.core.dag t.core.reads packages :
        Does Act newActs (fresh cfg t.core.store t.core.dag t.core.reads : Core H) _)
    obtain ⟨howned, hpatches⟩ := told_owned (t := t) (m := .restart cfg packages)
      (fresh cfg t.core.store t.core.dag t.core.reads)
      (fun doc peer r hr => nomatch (hr : none = some r)) (Nat.zero_le _) htold
    exact ⟨howned, hpatches, fun caller doc peer h => (hothers caller doc peer h).elim⟩
  · have htold := step_told hready he (fun cfg packages h => hrestart ⟨cfg, packages, h⟩)
      (fun caller doc peer message h => hsync ⟨caller, doc, peer, message, h⟩)
      fun caller doc peer h => hend ⟨caller, doc, peer, h⟩
    obtain ⟨howned, hpatches⟩ := told_owned t.core (by rw [hbuilt]; exact ht)
      (Nat.le_refl _) htold
    exact ⟨howned, hpatches, fun caller doc peer h => (hothers caller doc peer h).elim⟩

/-- Reached from a start, by messages that each met `ok`. -/
def Reach (ok : Core H → Message → Prop) (t : Traced H) : Prop :=
  ∃ cfg packages, (system H).Runs (fun t m => ok t.core m) (start cfg packages) t

/-- **Replicas answer only for themselves along the runs in which every message of a replica comes
under a name that is its caller's or nobody's.** -/
theorem answers_own (h : t.Reach Core.OwnName) (he : t.core.Enabled m) (hown : t.core.OwnName m) :
    t.Answers m := by
  obtain ⟨cfg, packages, hrun⟩ := h
  have hinv := hrun.invariant (I := fun t => t.core.Ready ∧ t.Owned)
    ⟨Core.new_ready _ _ _ _ _, fun doc peer r hr => by
      rw [show (start cfg packages : Traced H).core.replica doc peer = none from
        new_replica cfg .empty .empty 0 packages doc peer] at hr
      cases hr⟩
    fun t m ht he hown => ⟨Core.ready_step ht.1 he, (step_owned ht.1 ht.2 he hown).1⟩
  exact (step_owned hinv.1 hinv.2 he hown).2

instance (t : Traced H) (m : Message) : Decidable ((system H).enabled t m) :=
  inferInstanceAs (Decidable (t.core.Enabled m))

/-- Ana and Ben share a workspace, whose notes she has open. -/
def shared : List Message :=
  Sample.signUp ++ [.request Sample.ana (.createWorkspace "team"),
    .request Sample.ana (.setMember s!"ws_{Sample.unique 6}" (.user Sample.ben.user) .edit),
    .request Sample.ana (.selectWorkspace s!"ws_{Sample.unique 6}" none),
    .request Sample.ana (.openDoc "notes")]

/-- The notes they share. -/
def sharedNotes : DocId :=
  (((Core.system Sample.host).run (.start (Sample.server 1) [Sample.staged Sample.notes])
    shared).existingDocumentOf "notes").getD ""

/-- Ana's frame has synced them. -/
def anaSynced : Traced Sample.host :=
  (system Sample.host).run (start (Sample.server 1) [Sample.staged Sample.notes])
    (shared ++ [.request Sample.ana (.docSync sharedNotes "tab" [1])])

theorem answers_own_again :
    anaSynced.Answers (.request Sample.ana (.docSync sharedNotes "tab" [2])) :=
  answers_own ⟨_, _, System.runs_of_list (by decide +kernel)⟩ (by decide +kernel)
    (by decide +kernel)

/-- Ben's frame under the same name takes over what hers built up. -/
theorem peer_taken : ¬∀ (t : Traced Sample.host) (m : Message), t.Reach (fun _ _ => True) →
    t.core.Enabled m → t.Answers m := by
  intro h
  let m : Message := .request Sample.ben (.docSync sharedNotes "tab" [])
  have hreach : anaSynced.Reach (fun _ _ => True) :=
    ⟨_, _, System.runs_of_list (by decide +kernel)⟩
  have hanswers := h anaSynced m hreach (by decide +kernel)
  have hbefore : (anaSynced.core.replica sharedNotes "tab").any
      (fun r => r.user = Sample.ana.user) = true := by decide +kernel
  have hafter : ((anaSynced.core.step m).replica sharedNotes "tab").any
      (fun r => r.user = Sample.ana.user) = false := by decide +kernel
  obtain ⟨r, hr⟩ : ∃ r, anaSynced.core.replica sharedNotes "tab" = some r := by
    rw [← Option.isSome_iff_exists]
    decide +kernel
  have hstill := hanswers.others Sample.ben sharedNotes "tab" (.inr ⟨[], rfl⟩) r hr Sample.ana.user
    (by decide +kernel) (by decide)
  rw [hstill, ← hr, hbefore] at hafter
  cases hafter

end Traced

end LocalSpace
