import LocalSpace.Sample
import LocalSpace.Steps

/-!
# The engine's slots

No more answers are written at once than the engine has slots, and nobody has more than one
answer that is written or awaits an approval. The second always holds. The first is kept by
every act but one: an approval granted puts its turn back to being written whatever the other
turns do (`Act.withinSlots`), so it holds along the runs in which a granted approval finds a
slot (`slots_kept`), and not along all (`approve_overuses`).
-/

namespace LocalSpace

open Library

variable {H : Host} {ps : List Part} {s t : Core H} {p : Part}

namespace Core

/-- No more turns are written than there are slots. -/
@[grind =]
def WithinSlots (c : Core H) : Prop :=
  c.written ≤ c.cap

/-- An approval granted finds a slot for the turn it puts back to being written, if it does. -/
def resumesInSlot (c : Core H) (id : String) : Bool :=
  match c.mine.pending.lookup id with
  | none => true
  | some p =>
    !p.resumeAgent || (c.waitingTurn p.turn).all fun x => x.state = .writing ∨ c.written < c.cap

/-- Where a message is an approval granted, it finds a slot. -/
def findsSlot (c : Core H) : Message → Bool
  | .request caller (.approve id true) => (c.entered caller).resumesInSlot id
  | _ => true

/-- A person's answers that are written or await an approval. -/
def liveOf (c : Core H) (u : UserId) : List Turn :=
  c.turns.filter fun t => t.owner = u ∧ t.live = true

end Core

/-! ### What acts do to the slots -/

theorem Core.cap_eq (hslots : t.cfg.slots = s.cfg.slots) : t.cap = s.cap := by
  unfold Core.cap
  rw [hslots]

theorem Core.written_eq (hturns : t.turns = s.turns) : t.written = s.written := by
  unfold Core.written
  rw [hturns]

/-- A turn that has come into the queue. -/
private theorem withinSlots_queued {y : Turn} (hw : s.WithinSlots)
    (hy : y.place = .served → s.written < s.cap) : (s.queued y).WithinSlots := by
  unfold Core.WithinSlots at *
  rw [Core.written_eq_served] at *
  rw [show (s.queued y).cap = s.cap from rfl]
  unfold Core.queued
  dsimp only
  rw [SlotLine.served_push]
  split
  · next h => exact hy h
  · exact hw

/-- A turn of the queue moved. -/
private theorem withinSlots_put (hs : s.Sound) {before after : List Turn} {x : Turn}
    (hturns : s.turns = before ++ x :: after) {change : Turn → Turn} (hw : s.WithinSlots)
    (hx : (change x).place = .served → x.place = .served ∨ s.written < s.cap) :
    (s.changeTurn x.id change).WithinSlots := by
  unfold Core.WithinSlots at *
  rw [Core.written_eq_served] at *
  rw [show (s.changeTurn x.id change).cap = s.cap from rfl, hs.changeTurn_turns hturns]
  rw [hturns] at hw hx
  rw [SlotLine.served_put] at *
  split
  · next h =>
    rcases hx h with h' | h'
    · simpa [h'] using hw
    · split at h' <;> omega
  · split at hw <;> omega

/-- Turns changed, none of them to being written. -/
private theorem withinSlots_map {f : Turn → Turn} (hw : s.WithinSlots)
    (hf : ∀ x, (f x).place = .served → x.place = .served) :
    ({ s with turns := s.turns.map f } : Core H).WithinSlots := by
  unfold Core.WithinSlots at *
  rw [Core.written_eq_served] at *
  refine le_trans ?_ hw
  unfold SlotLine.served
  dsimp only
  rw [List.countP_map]
  exact List.countP_mono_left fun x _ h => by simpa using hf x (by simpa using h)

/-- **Every act but an approval's keeps to the slots.** -/
theorem Act.withinSlots (hs : s.Sound) (hp : p.plain = true) (hresume : p ≠ .resume)
    (h : Act p s t) (hw : s.WithinSlots) : t.WithinSlots := by
  have hframe := h.frame hp
  by_cases hq : p.queues = false
  · unfold Core.WithinSlots
    rw [Core.written_eq (hframe.turns hq), Core.cap_eq hframe.slots]
    exact hw
  cases p <;> first | exact absurd rfl hq | skip
  case push =>
    obtain ⟨_, _, state, _, hne, rfl⟩ := h
    exact withinSlots_queued hw fun h => absurd (Turn.place_eq_served_iff.1 h) hne
  case start =>
    obtain ⟨conversation, continuing, _, hstate, _, rfl⟩ := h
    have hgoes := s.place_whereItGoes s.turns (s.newTurn conversation continuing)
    rw [hstate] at hgoes
    have hfree := (SlotLine.goes_eq_served_iff.1 hgoes.symm).2
    rw [← Core.written_eq_served] at hfree
    exact withinSlots_queued hw fun _ => hfree
  case tweak =>
    obtain ⟨id, change, hchange, rfl⟩ := h
    refine withinSlots_map hw fun x hx => ?_
    split at hx
    · rwa [Turn.place, (hchange x).state] at hx
    · exact hx
  case propose =>
    obtain ⟨id, _, calls, rfl⟩ := h
    refine withinSlots_map hw fun x hx => ?_
    split at hx <;> exact hx
  case call =>
    obtain ⟨id, _, _, _, rest, _, _, rfl⟩ := h
    refine withinSlots_map hw fun x hx => ?_
    split at hx <;> exact hx
  case pause =>
    obtain ⟨id, _, rfl⟩ := h
    refine withinSlots_map hw fun x hx => ?_
    split at hx
    · cases hx
    · exact hx
  case resume => exact absurd rfl hresume
  case drop =>
    obtain ⟨turn, _, st, hst, rfl⟩ := h
    refine le_trans ?_ hw
    rw [Core.written_eq_served, Core.written_eq_served]
    exact SlotLine.served_filter_le _
  case wait =>
    obtain ⟨turn, state, hnext, hne, rfl⟩ := h
    obtain ⟨_, _, hturns, -⟩ := Core.Sound.nextMove_spec hnext
    exact withinSlots_put hs hturns hw fun h => absurd (Turn.place_eq_served_iff.1 h) hne
  case begin =>
    obtain ⟨turn, _, hnext, _, rfl⟩ := h
    obtain ⟨before, _, hturns, -, hstate, -⟩ := Core.Sound.nextMove_spec hnext
    have hgoes := s.place_whereItGoes before turn
    rw [← hstate] at hgoes
    have hfree := (SlotLine.goes_eq_served_iff.1 hgoes.symm).2
    rw [← Core.written_eq_served] at hfree
    exact withinSlots_put hs hturns hw fun _ => .inr hfree

/-- What goes without an approval granted keeps to the slots. -/
theorem Core.Sound.withinSlots (hs : s.Sound) (h : Does Act ps s t)
    (hps : (fine ps).all (fun p => p.plain && p ≠ .resume) = true := by rfl)
    (hw : s.WithinSlots) : t.WithinSlots := by
  refine hs.keeps (I := Core.WithinSlots) h ?_ hw
  intro p hp u v hu hact hu'
  have hp := List.all_eq_true.1 hps p hp
  simp only [Bool.and_eq_true, decide_eq_true_eq] at hp
  exact hact.withinSlots hu hp.1 hp.2 hu'

/-! ### An approval granted -/

/-- Until an approval puts its turn back: the slots are kept to, and there is one for it. -/
structure Core.HasRoom (pending : Pending) (c : Core H) : Prop where
  ready : c.Ready
  slots : c.WithinSlots
  begun : ∀ id ∈ pending.turn, id ∈ c.begins
  room : pending.resumeAgent = true → ∀ x, c.waitingTurn pending.turn = some x →
    x.state = .writing ∨ c.written < c.cap

theorem Core.HasRoom.does {pending : Pending} (hs : s.HasRoom pending) (h : Does Act ps s t)
    (hps : (fine ps).all (fun p => p.plain && !p.queues && p ≠ .inlining && p ≠ .start &&
      p ≠ .begin) = true := by rfl) : t.HasRoom pending := by
  have hsame : ∀ p ∈ fine ps, p.plain = true ∧ p.queues = false ∧ p ≠ .inlining ∧ p ≠ .start ∧
      p ≠ .begin := by
    intro p hp
    have := List.all_eq_true.1 hps p hp
    simpa [and_assoc] using this
  refine (hs.ready.1.keeps (I := fun t => t.HasRoom pending) h ?_ hs)
  intro p hp u v hu hact hroom
  obtain ⟨hplain, hq, hin, hstart, hbegin⟩ := hsame p hp
  have hframe := hact.frame hplain
  have hturns := hframe.turns hq
  refine ⟨⟨hu.step hact, hact.idle hin hu hroom.ready.2⟩, ?_, ?_, ?_⟩
  · unfold Core.WithinSlots
    rw [Core.written_eq hturns, Core.cap_eq hframe.slots]
    exact hroom.slots
  · rw [hframe.begins hstart hbegin]
    exact hroom.begun
  · intro hagent x hx
    rw [Core.written_eq hturns, Core.cap_eq hframe.slots]
    refine hroom.room hagent x ?_
    unfold Core.waitingTurn Core.turnOf at hx ⊢
    rwa [hturns] at hx

/-- What leaves the queue alone leaves the room. -/
private theorem hasRoom {α : Type} {m : Program H α} {pending : Pending} (h : Within (Does Act ps) m)
    (hps : (fine ps).all (fun p => p.plain && !p.queues && p ≠ .inlining && p ≠ .start &&
      p ≠ .begin) = true := by rfl) :
    Ensures (Core.HasRoom pending) m fun _ => Core.HasRoom pending :=
  h.ensures fun _ _ hs hst => hs.does hst hps

/-- The turn of the approval is put back to being written, in the slot there is for it. -/
theorem setState_withinSlots {pending : Pending} (hagent : pending.resumeAgent = true) {id : Nat}
    (hid : pending.turn = some id) :
    Ensures (Core.HasRoom pending) (setState (H := H) id .writing)
      fun _ c => (c.Ready ∧ id ∈ c.begins) ∧ c.WithinSlots := by
  intro s hs
  obtain ⟨hdoes, hsound, hbegun⟩ := setState_resumes id s ⟨hs.ready.1, hs.begun id (by simp [hid])⟩
  refine ⟨⟨⟨hsound, hs.ready.2.run hs.ready.1 hdoes⟩, hbegun⟩, ?_⟩
  unfold setState
  rw [run_bind, run_get]
  dsimp only
  split
  · exact hs.slots
  · next x hx =>
    obtain ⟨hmem, rfl⟩ := turnOf_mem hx
    split
    · next hne =>
      obtain ⟨before, after, hturns⟩ := List.append_of_mem hmem
      have hfree : s.written < s.cap :=
        (hs.room hagent x (by simp [Core.waitingTurn, hid, hx])).resolve_left hne
      exact withinSlots_put hs.ready.1 hturns hs.slots fun _ => .inr hfree
    · exact hs.slots

theorem resume_withinSlots (pending : Pending) (hagent : pending.resumeAgent = true) (tool : String)
    (params : Json) (outcome : ToolOutcome) :
    Ensures (Core.HasRoom pending) (resume (H := H) pending.turn tool params outcome)
      fun _ => Core.WithinSlots := by
  unfold resume
  refine Ensures.get_bind fun s => ?_
  split
  · exact Ensures.pure fun _ h => h.2.slots
  · next x hx =>
    obtain ⟨id, hid, hx⟩ := Option.bind_eq_some_iff.1 hx
    obtain ⟨-, rfl⟩ := turnOf_mem hx
    refine Ensures.bind (Q := fun _ => Core.HasRoom pending)
      ((hasRoom (recordCall_does _ _ _ _)).mono (fun _ h => h.2) fun _ _ h => h) fun _ => ?_
    refine Ensures.bind (setState_withinSlots hagent hid) fun _ => ?_
    -- the turn's next step is posted, and nothing is left to do
    intro c ⟨⟨hready, hbegun⟩, hslots⟩
    obtain ⟨hpost, hsound, -⟩ :=
      (post_does rfl (by simp) (by simp) : Within (SoundlyFor x.id [.mail])
        (post (H := H) (.goOn x.id))) c
        ⟨hready.1, hbegun⟩
    have hidle := hready.2.run hready.1 hpost
    rw [run_bind, drain_run hidle]
    exact hready.1.withinSlots hpost rfl hslots

theorem hasRoom_of_resumesInSlot {id : String} {pending : Pending} (hready : s.Ready)
    (hslots : s.WithinSlots) (hp : s.mine.pending.lookup id = some pending)
    (hfinds : s.resumesInSlot id = true) : s.HasRoom pending where
  ready := hready
  slots := hslots
  begun := hready.1.pending _ _ s.stateOf_active id pending hp
  room hagent x hx := by
    simpa [Core.resumesInSlot, hp, hagent, hx] using hfinds

/-- A granted approval that finds a slot keeps to the slots. -/
theorem approve_withinSlots (id : String) :
    Ensures (fun c => (c.Ready ∧ c.WithinSlots) ∧ c.resumesInSlot id = true)
      (approve (H := H) id true) fun _ => Core.WithinSlots := by
  unfold approve
  refine Ensures.get_bind fun s => ?_
  split
  · exact Ensures.pure fun _ h => h.2.1.2
  · next pending hp =>
    rw [Bool.not_true, if_neg (by simp)]
    refine Ensures.bind (Q := fun _ => Core.HasRoom pending) ?_ fun _ => ?_
    · refine (hasRoom (Within.change_by Part.lift (by simp) fun _ => ⟨_, rfl⟩ :
        Within (Does Act [.lift]) _)).mono ?_ fun _ _ h => h
      rintro _ ⟨rfl, h, hfinds⟩
      exact hasRoom_of_resumesInSlot h.1 h.2 hp hfinds
    refine (hasRoom (approveEgress_does _ _ (by simp) : Within (Does Act [.note]) _)).bind fun _ =>
      (hasRoom (callTool_does _ _ _)).bind fun outcome =>
        (hasRoom (Within.get : Within (Does Act []) _)).bind fun _ =>
          (hasRoom (emit_does rfl (by simp) : Within (Does Act [.note]) _)).bind fun _ => ?_
    split
    · next hagent =>
      exact (resume_withinSlots pending hagent _ _ _).bind fun _ => Ensures.pure fun _ h => h
    · exact Ensures.pure fun _ h => h.slots

/-! ### Runs -/

/-- The state a message is handled in is as full as the one it came in. -/
theorem Core.WithinSlots.opened (hw : s.WithinSlots) (m : Message) : (s.opened m).WithinSlots := by
  cases m with
  | request caller req =>
    unfold Core.opened
    dsimp only
    split
    · exact hw
    · have hcame := s.came caller
      have hturns : (s.entered caller).turns = s.turns := congrArg Prod.fst hcame.flow
      unfold Core.WithinSlots
      rw [Core.written_eq hturns, Core.cap_eq (s := s) (by rw [hcame.cfg])]
      exact hw
  | system req => exact hw
  | read i step => exact hw
  | posted i => exact hw
  | restart cfg packages => exact hw

theorem withinSlots_new (cfg : Config) (db : Store) (dag : Dag) (reads : Nat)
    (packages : List Staged) : (Core.new cfg db dag reads packages : Core H).WithinSlots :=
  (Core.fresh_ready cfg db dag reads).1.withinSlots (Core.new_does cfg db dag reads packages) rfl
    (Nat.zero_le _)

theorem withinSlots_step {c : Core H} (hc : c.Ready) (hw : c.WithinSlots) {m : Message}
    (hm : c.Enabled m) (hfinds : c.findsSlot m = true) : (c.step m).WithinSlots := by
  have hopened := hw.opened m
  cases m with
  | restart cfg packages => exact withinSlots_new _ _ _ _ _
  | system req => exact hc.1.withinSlots (Core.step_does hc hm (by simp)) rfl hopened
  | read i step =>
    exact (hc.opened _).1.withinSlots (Core.step_does hc hm (by simp)) rfl hopened
  | posted i => exact (hc.opened _).1.withinSlots (Core.step_does hc hm (by simp)) rfl hopened
  | request caller req =>
    have hdoes := Core.step_does hc hm (by simp)
    have hready := hc.opened (.request caller req)
    cases req
    case approve id granted =>
      cases granted with
      | false => exact hready.1.withinSlots hdoes rfl hopened
      | true =>
        by_cases hcaller : caller.isSystem = true
        · rw [Core.step_request_system hcaller]
          exact hw
        · rw [Bool.not_eq_true] at hcaller
          rw [Core.step_request hcaller]
          simp only [Core.opened, hcaller] at hready hopened
          exact approve_withinSlots id _ ⟨⟨hready, hopened⟩, hfinds⟩
    all_goals exact hready.1.withinSlots hdoes rfl hopened

/-- Nobody has more than one answer that is written or awaits an approval. -/
theorem one_live (hs : s.Sound) (u : UserId) : (s.liveOf u).length ≤ 1 := by
  have hpair : (s.liveOf u).Pairwise fun _ _ => False := by
    refine List.Pairwise.imp_of_mem (fun {a b} ha hb hab => ?_) (hs.ordered.filter _)
    have ha := (List.mem_filter.1 ha).2
    have hb := (List.mem_filter.1 hb).2
    simp only [decide_eq_true_eq] at ha hb
    have hbehind := Turn.place_eq_behind_iff.1 (hab (ha.1.trans hb.1.symm))
    simp [Turn.live, hbehind] at hb
  match hlist : s.liveOf u with
  | [] => exact Nat.zero_le _
  | [x] => exact Nat.le_refl _
  | x :: y :: rest =>
    rw [hlist] at hpair
    exact ((List.pairwise_cons.1 hpair).1 y List.mem_cons_self).elim

/-- **The slots are never over-used**, along the runs in which every approval granted to a turn
finds a slot for it; and nobody has two answers that are written or await an approval. -/
theorem slots_kept {c : Core H} (h : c.Reach fun c m => c.findsSlot m = true) :
    c.written ≤ max c.cfg.slots 1 ∧ ∀ u, (c.liveOf u).length ≤ 1 := by
  refine ⟨?_, fun u => one_live (Core.ready_of_reach h).1 u⟩
  refine (h.induction (I := fun c => c.Ready ∧ c.WithinSlots) (fun cfg packages => ?_)
    fun c m hc hm hfinds => ?_).2
  · exact ⟨Core.new_ready _ _ _ _ _, withinSlots_new _ _ _ _ _⟩
  · exact ⟨Core.ready_step hc.1 hm, withinSlots_step hc.1 hc.2 hm hfinds⟩

/-- Ana's answer on a server of one slot comes to await her approval, and she grants it. -/
def approvedAlone : List Message :=
  Sample.signUp ++ [.request Sample.ana (.sendMessage "hello" none []),
    .read 0 (Sample.calls "notes.ask"), .posted 0, .request Sample.ana (.approve "confirm:1" true)]

theorem slots_kept_alone :
    let c := (Core.system Sample.host).run (.start (Sample.server 1) [Sample.staged Sample.notes])
      approvedAlone
    c.written ≤ max c.cfg.slots 1 ∧ ∀ u, (c.liveOf u).length ≤ 1 :=
  slots_kept ⟨Sample.server 1, [Sample.staged Sample.notes],
    System.runs_of_list (by decide +kernel)⟩

/-- While Ana's answer awaits her approval Ben's takes the one slot; then she grants it. -/
def approvedBeside : List Message :=
  Sample.signUp ++ [.request Sample.ana (.sendMessage "hello" none []),
    .read 0 (Sample.calls "notes.ask"), .posted 0,
    .request Sample.ben (.sendMessage "hello" none []),
    .request Sample.ana (.approve "confirm:1" true)]

/-- Two answers are written in one slot. -/
theorem approve_overuses : ¬∀ c : Core Sample.host, c.Reach (fun _ _ => True) →
    c.written ≤ max c.cfg.slots 1 ∧ ∀ u, (c.liveOf u).length ≤ 1 := by
  intro h
  have hreach : Core.Reach (fun _ _ => True) ((Core.system Sample.host).run
      (.start (Sample.server 1) [Sample.staged Sample.notes]) approvedBeside) :=
    ⟨_, _, System.runs_of_list (by decide +kernel)⟩
  exact absurd (h _ hreach).1 (by decide +kernel)

end LocalSpace
