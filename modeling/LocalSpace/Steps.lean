import LocalSpace.DispatchActs
import LocalSpace.Run

/-!
# By which acts a message goes

`Core.step` act by act: the state a message is handled in (`Core.opened`: its caller made the
active one, or the step that came back taken off), the kinds of acts its handling may go by
(`messageActs`), and that Core is `Ready` again after it: its queue sound, nothing left to do
inside a request. A start is acts from a Core just made on its database.

So a ready Core stays ready along every run (`Core.ready_of_reach`), and a property of every
step is a property of the acts (`Core.step_does`).
-/

namespace LocalSpace

open Library

variable {H : Host} {ps : List Part}

namespace Core

/-- Between messages: the queue is sound, and nothing is left to do inside a request. -/
def Ready (c : Core H) : Prop :=
  c.Sound ∧ c.Idle

/-- A caller's request come in: the per-user state is theirs. -/
def entered (c : Core H) (caller : Caller) : Core H :=
  ((activate caller).run c).2

/-- The state a message is handled in. -/
@[grind =]
def opened (c : Core H) : Message → Core H
  | .request caller _ => if caller.isSystem then c else c.entered caller
  | .system _ => c
  | .read i _ => { c with reading := c.reading.eraseIdx i }
  | .posted i => { c with posted := c.posted.eraseIdx i }
  | .restart .. => c

theorem Ready.entered {c : Core H} (hc : c.Ready) (caller : Caller) : (c.entered caller).Ready :=
  ⟨hc.1.step (p := .enter) ⟨caller, rfl⟩,
    Act.idle (p := .enter) (by simp) ⟨caller, rfl⟩ hc.1 hc.2⟩

/-- What a caller's coming in leaves: everything but whose turn it is, their own workspace and
their state where Core did not know them. -/
structure Came (caller : Caller) (c t : Core H) : Prop where
  cfg : t.cfg = c.cfg
  registry : t.registry = c.registry
  docs : t.docs = c.docs
  dag : t.dag = c.dag
  gateway : t.gateway = c.gateway
  providers : t.providers = c.providers
  records : t.store.documents = c.store.documents
  accounts : t.store.users = c.store.users
  admitted : t.access.documents = c.access.documents
  replicas : t.syncStates = c.syncStates
  flow : t.flow = c.flow
  events : t.events = c.events
  active : t.active = caller
  reads : c.reads ≤ t.reads
  workspaces : t.access.workspaces = c.access.workspaces ∨
    c.access.workspace (Workspace.personalId caller.user) = none ∧
      t.access.workspaces = (c.access.addWorkspace (.personal caller.user)).workspaces
  known : ∀ u st, c.stateOf u = some st → t.stateOf u = some st
  others : ∀ u, u ≠ caller.user → t.stateOf u = c.stateOf u
  new : c.stateOf caller.user = none → t.mine.breakGlass = none ∧ t.mine.pending = ∅ ∧
    t.mine.workspace = (c.homed caller.user).firstWorkspace caller.user

theorem came (c : Core H) (caller : Caller) : Came caller c (c.entered caller) := by
  unfold entered
  rcases activate_run caller c with ⟨st, hst, hrun⟩ | ⟨hnone, st, current, hglass, hpending, hws, hrun⟩
  · have hstate := c.stateOf_seated hst
    rw [hrun]
    exact ⟨rfl, rfl, rfl, rfl, rfl, rfl, rfl, rfl, rfl, rfl, rfl, rfl, rfl, Nat.le_refl _, .inl rfl,
      fun u _ h => (hstate u).trans h, fun u _ => hstate u, fun h => by simp [h] at hst⟩
  · have hstate := stateOf_activate_new hnone
    have hworkspaces : (c.homed caller.user).access.workspaces = c.access.workspaces ∨
        c.access.workspace (Workspace.personalId caller.user) = none ∧
          (c.homed caller.user).access.workspaces =
            (c.access.addWorkspace (.personal caller.user)).workspaces := by
      unfold homed
      split
      · next h => exact .inr ⟨by simpa using h, rfl⟩
      · exact .inl rfl
    obtain ⟨workspaces, access, hhomed, hadmitted⟩ := c.homed_eq caller.user
    rw [hrun] at *
    refine ⟨by rw [hhomed], by rw [hhomed], by rw [hhomed], by rw [hhomed], by rw [hhomed],
      by rw [hhomed], by rw [hhomed], by rw [hhomed], by rw [hhomed]; exact hadmitted,
      by rw [hhomed], by rw [hhomed]; rfl, by rw [hhomed], rfl, Nat.le_succ _, hworkspaces,
      fun u st' h => ?_, fun u hu => ?_, fun _ => ⟨hglass, hpending, hws⟩⟩
    · rw [hstate, if_neg, h]
      rintro rfl
      rw [hnone] at h
      cases h
    · rw [hstate, if_neg hu.symm]

private theorem Sound.came {c : Core H} (hc : c.Sound) {posted : List Internal}
    {reading : List Reading} (hposted : posted ⊆ c.posted) (hreading : reading ⊆ c.reading) :
    ({ c with posted := posted, reading := reading } : Core H).Sound where
  sorted := hc.sorted
  young := hc.young
  ordered := hc.ordered
  waits := hc.waits
  begun := hc.begun
  past := hc.past
  once := hc.once
  known := hc.known
  inline := hc.inline
  posted m hm := hc.posted m (hposted hm)
  reading r hr := hc.reading r (hreading hr)
  atWork := hc.atWork
  counted := hc.counted
  did := hc.did
  pending := hc.pending

theorem Ready.opened {c : Core H} (hc : c.Ready) (m : Message) : (c.opened m).Ready := by
  cases m with
  | request caller req =>
    unfold Core.opened
    dsimp only
    split
    · exact hc
    · exact hc.entered caller
  | system req => exact hc
  | read i step =>
    exact ⟨hc.1.came (List.Subset.refl _) fun _ => List.mem_of_mem_eraseIdx, hc.2⟩
  | posted i => exact ⟨hc.1.came (fun _ => List.mem_of_mem_eraseIdx) (List.Subset.refl _), hc.2⟩
  | restart cfg packages => exact hc

end Core

/-- The kinds of acts a message may go by, from the state it is handled in. -/
def messageActs (H : Host) : Message → List Part
  | .request _ req => requestActs H req
  | .system _ => [.enrol]
  | .read .. => replyActs
  | .posted _ => turnActs
  | .restart .. => []

/-! ### Requests -/

/-- Who may make the request is asked first. -/
theorem handleInner_does {req : Request} (hreq : ∀ harness, req ≠ .runEvals harness) :
    Within (Idly (requestActs H req)) (handleInner (H := H) req) := by
  unfold handleInner
  split
  · exact dispatch_does hreq
  · refine Within.bind (idly (soundly (requireAdmin_does _ (note_mem_requestActs req)))
      (inlining_notMem hreq)) fun r => ?_
    split
    · exact Within.pure _
    · exact dispatch_does hreq
where
  inlining_notMem {req : Request} (hreq : ∀ harness, req ≠ .runEvals harness) :
      Part.inlining ∉ requestActs H req := by
    cases req
    case runEvals harness => exact absurd rfl (hreq harness)
    case approve id granted => cases granted <;> simp [requestActs]
    all_goals simp [requestActs]

/-- A suite is run for an administrator. -/
theorem handleEvals_does (harness : HarnessId) :
    Within (Steadily evalActs) (handleInner (H := H) (.runEvals harness)) := by
  unfold handleInner
  rw [show adminOnly (.runEvals harness) = some "evals.run" from rfl]
  refine Within.bind (steadily (requireAdmin_does _ (by simp) : Within (Does Act [.note]) _))
    fun r => ?_
  split
  · exact Within.pure _
  · exact runEvals_does harness

namespace Core

theorem step_request {c : Core H} {caller : Caller} (hcaller : caller.isSystem = false)
    (req : Request) :
    c.step (.request caller req) = ((handleInner req).run (c.entered caller)).2 := by
  unfold step handleAs
  dsimp only
  rw [if_neg (by simp [hcaller])]
  rfl

theorem step_request_system {c : Core H} {caller : Caller} (hcaller : caller.isSystem = true)
    (req : Request) : c.step (.request caller req) = c := by
  unfold step handleAs
  dsimp only
  rw [if_pos hcaller]
  rfl

theorem request_does {c : Core H} (hc : c.Ready) (caller : Caller) (req : Request)
    (hdone : (c.step (.request caller req)).inline.isEmpty = true) :
    Does Act (requestActs H req) (c.opened (.request caller req)) (c.step (.request caller req)) ∧
      (c.step (.request caller req)).Ready := by
  by_cases hcaller : caller.isSystem = true
  · rw [step_request_system hcaller]
    unfold opened
    dsimp only
    rw [if_pos hcaller]
    exact ⟨.refl, hc⟩
  · rw [Bool.not_eq_true] at hcaller
    rw [step_request hcaller] at hdone ⊢
    unfold opened
    dsimp only
    rw [if_neg (by simp [hcaller])]
    by_cases hreq : ∃ harness, req = .runEvals harness
    · obtain ⟨harness, rfl⟩ := hreq
      obtain ⟨hdoes, hsound, hinline⟩ := handleEvals_does harness _
        ⟨(hc.entered caller).1, (hc.entered caller).2.2⟩
      exact ⟨hdoes, hsound, by simpa using hdone, hinline⟩
    · exact handleInner_does (fun harness h => hreq ⟨harness, h⟩) _ (hc.entered caller)

end Core

/-! ### Steps of turns -/

/-- What comes back to a turn that has begun leaves nothing to do. -/
theorem internal_does (message : Internal) {c : Core H} (hc : c.Ready)
    (hbegun : message.turn ∈ c.begins)
    (hdoes : Within (SoundlyFor message.turn ps) (handleInternal (H := H) message))
    (hps : Part.inlining ∉ ps := by simp) :
    ((internal message).run c).2 = ((handleInternal message).run c).2 ∧
      Does Act ps c ((internal message).run c).2 ∧ ((internal message).run c).2.Ready := by
  obtain ⟨hdoes, hsound, -⟩ := hdoes c ⟨hc.1, hbegun⟩
  have hidle := hc.2.run hc.1 hdoes hps
  have hrun : ((internal message).run c).2 = ((handleInternal message).run c).2 :=
    drain_run hidle
  rw [hrun]
  exact ⟨rfl, hdoes, hsound, hidle⟩

/-! ### Starting -/

/-- A start, from a Core just made. -/
abbrev newActs : List Part := .load :: installActs

theorem settlePackages_does (packages : List Staged) :
    Within (Does Act installActs) (settlePackages (H := H) packages) := by
  have hnotAvailable : ∀ (e : String) (id : HarnessId), Within (Does Act installActs)
      (do
        notice .error s!"`{id}` is not available: {e}"
        modify fun c => { c with registry := c.registry.remove id } : Program H Unit) :=
    fun e id => (notice_does _ _ (by simp)).bind fun _ =>
      Within.change_by Part.package (by simp) fun s => ⟨s.registry.remove id, rfl⟩
  unfold settlePackages
  refine Within.bind (Within.forM fun staged _ => ?_) fun _ => Within.get.bind fun c =>
    Within.bind (Within.forM fun package _ => ?_) fun _ => Within.get.bind fun c =>
      Within.bind (Within.forM fun h _ => ((docFor_does h.id).more (by simp)).bind fun _ =>
        Within.pure _)
        fun _ => Within.bind (Within.change_by Part.desk (by simp) fun s =>
          ⟨if s.mine.focus.isNone then s.registry.firstHarness else s.mine.focus, s.mine.pinned,
            s.mine.touched, rfl⟩) fun _ => (writeLock_does.more (by simp))
  · unfold settleDependencies
    refine Within.get.bind fun c => ?_
    split
    · exact hnotAvailable _ _
    · refine (installAll_does (fun path => installFor_does _ path false) _ _).bind fun r => ?_
      split
      · exact hnotAvailable _ _
      · exact Within.pure _
  · unfold settleKinds
    refine Within.get.bind fun c => ?_
    split
    · exact Within.pure _
    · exact hnotAvailable _ _

theorem loadHarnesses_does (packages : List Staged) :
    Within (Does Act installActs) (loadHarnesses (H := H) packages) :=
  Within.get.bind fun _ => Within.bind (Within.change_by Part.package (by simp) fun s =>
    ⟨((packages.filter _).map Staged.package).foldl Registry.insert s.registry, rfl⟩) fun _ =>
      settlePackages_does _

theorem loadDocuments_does : Within (Does Act [.load]) (loadDocuments (H := H)) := by
  unfold loadDocuments
  refine Within.get_bind fun s => ?_
  let P : Core H → Prop := fun c => c.store = s.store
  refine And.left ((?_ : Within (Keeping P (Does Act [.load])) _) s rfl)
  refine Within.forM fun e he c hc => ⟨?_, hc⟩
  obtain ⟨x, hx, rfl⟩ := List.mem_map.1 he
  have hlookup : c.store.getDocument x.1 = some x.2 := by
    rw [show c.store = s.store from hc]
    exact AList.mem_lookup_iff.2 hx
  exact Does.single (p := .load) ⟨x.1, x.2, hlookup, rfl⟩ (by simp)

namespace Core

theorem fresh_ready (cfg : Config) (db : Store) (dag : Dag) (reads : Nat) :
    (fresh cfg db dag reads : Core H).Ready := by
  refine ⟨⟨by simp [fresh], by simp [fresh], by simp [fresh, SlotLine.Ordered], by simp [fresh],
    by simp [fresh], by simp [fresh], by simp [fresh], by simp [fresh], by simp [fresh],
    by simp [fresh], by simp [fresh], by simp [fresh], ?_, by simp [fresh], ?_⟩, rfl, rfl⟩
  · exact ⟨List.forall_mem_nil _, List.forall_mem_nil _, fun _ => Nat.zero_le _,
      fun _ => Nat.zero_le _⟩
  intro u st hst key p hp
  unfold stateOf at hst
  split at hst
  · cases hst
    cases hp
  · cases hst

theorem new_does (cfg : Config) (db : Store) (dag : Dag) (reads : Nat) (packages : List Staged) :
    Does Act newActs (fresh cfg db dag reads : Core H) (new cfg db dag reads packages) := by
  unfold new
  refine (?_ : Within (Does Act newActs) _) _
  split
  · exact ((loadHarnesses_does _).more (by simp)).bind fun _ => (loadDocuments_does.more (by simp))
  · exact (loadDocuments_does.more (by simp))

theorem new_ready (cfg : Config) (db : Store) (dag : Dag) (reads : Nat) (packages : List Staged) :
    (new cfg db dag reads packages : Core H).Ready :=
  have hfresh := fresh_ready cfg db dag reads
  have hdoes := new_does cfg db dag reads packages
  ⟨hfresh.1.run hdoes, hfresh.2.run hfresh.1 hdoes⟩

/-! ### Every message -/

private theorem step_acts {c : Core H} (hc : c.Ready) {m : Message} (hm : c.Enabled m)
    (hrestart : ∀ cfg packages, m ≠ .restart cfg packages) :
    Does Act (messageActs H m) (c.opened m) (c.step m) ∧ (c.step m).Ready := by
  cases m with
  | request caller req => exact request_does hc caller req hm.2
  | system req =>
    have hdoes : Does Act [.enrol] c (c.step (.system req)) := handleSystem_does req c
    exact ⟨hdoes, hc.1.run hdoes, hc.2.run hc.1 hdoes⟩
  | read i step =>
    have hi : i < c.reading.length := hm.1
    have hr : c.reading[i]? = some c.reading[i] := List.getElem?_eq_getElem hi
    unfold Core.step
    dsimp only
    rw [hr]
    exact (internal_does (.replied _ step) (hc.opened (.read i step))
      (hc.1.reading _ (List.mem_of_getElem? hr)) (replied_does _ step)).2
  | posted i =>
    have hi : i < c.posted.length := hm.1
    have hr : c.posted[i]? = some c.posted[i] := List.getElem?_eq_getElem hi
    unfold Core.step
    dsimp only
    rw [hr]
    exact (internal_does _ (hc.opened (.posted i)) (hc.1.posted _ (List.mem_of_getElem? hr))
      (handleInternal_does _)).2
  | restart cfg packages => exact absurd rfl (hrestart cfg packages)

/-- **A message goes by acts of its kinds**, from the state it is handled in. -/
theorem step_does {c : Core H} (hc : c.Ready) {m : Message} (hm : c.Enabled m)
    (hrestart : ∀ cfg packages, m ≠ .restart cfg packages) :
    Does Act (messageActs H m) (c.opened m) (c.step m) :=
  (step_acts hc hm hrestart).1

theorem ready_step {c : Core H} (hc : c.Ready) {m : Message} (hm : c.Enabled m) :
    (c.step m).Ready := by
  by_cases h : ∃ cfg packages, m = .restart cfg packages
  · obtain ⟨cfg, packages, rfl⟩ := h
    exact new_ready _ _ _ _ _
  · exact (step_acts hc hm fun cfg packages heq => h ⟨cfg, packages, heq⟩).2

/-- **Core is ready between messages**, in every reachable state. -/
theorem ready_of_reach {ok : Core H → Message → Prop} {c : Core H} (h : Reach ok c) : c.Ready :=
  h.induction (fun _ _ => new_ready _ _ _ _ _) fun _ _ hc hm _ => ready_step hc hm

end Core

end LocalSpace
