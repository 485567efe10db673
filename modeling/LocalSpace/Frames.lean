import LocalSpace.TurnActs

/-!
# What each kind of act leaves alone

For each component of Core's state the kinds of acts that change it, and that every other kind
leaves it as it was (`Act.frame`). The end of a turn is not among these acts: `fine` opens it
up into those it is made of.
-/

namespace LocalSpace

open Library

variable {H : Host} {ps : List Part} {s t : Core H} {p : Part}

namespace Part

/-- The kinds that change what documents hold. -/
def writes : Part → Bool
  | .bring | .write | .rewrite | .lock | .exported _ | .load => true
  | _ => false

/-- The kinds that change documents' history. -/
def commits : Part → Bool
  | .write | .rewrite | .lock | .exported _ => true
  | _ => false

/-- The kinds that change the documents' records. -/
def records : Part → Bool
  | .record | .exported _ | .tighten _ => true
  | _ => false

/-- The kinds that change who may do what on a document. -/
def admits : Part → Bool
  | .bring | .exported _ | .load | .tighten _ => true
  | _ => false

/-- The kinds that change the workspaces and their members. -/
def governs : Part → Bool
  | .member | .found => true
  | _ => false

/-- The kinds that change people's accounts. -/
def accounts : Part → Bool
  | .enrol | .disable | .roles => true
  | _ => false

/-- The kinds that change what replicas there are. -/
def connects : Part → Bool
  | .patch | .replica | .unreplica => true
  | _ => false

/-- The kinds that change whose turn it is. -/
def switches : Part → Bool
  | .seat | .drop => true
  | _ => false

/-- The kinds that change the queue of turns. -/
def queues : Part → Bool
  | .push | .start | .tweak | .propose | .call => true
  | .pause | .resume | .drop | .wait | .begin => true
  | _ => false

/-- One act, neither the end of a turn nor a caller's coming in. -/
@[grind =]
def plain : Part → Bool
  | .finish | .enter => false
  | _ => true

end Part

/-- What an act of a kind leaves alone. -/
structure Act.Frame (p : Part) (s t : Core H) : Prop where
  user : t.cfg.user = s.cfg.user
  organisation : t.cfg.organisation = s.cfg.organisation
  slots : t.cfg.slots = s.cfg.slots
  registry : p ≠ .package → t.registry = s.registry
  docs : p.writes = false → t.docs = s.docs
  dag : p.commits = false → t.dag = s.dag
  records : p.records = false → t.store.documents = s.store.documents
  admitted : p.admits = false → t.access.documents = s.access.documents
  workspaces : p.governs = false → t.access.workspaces = s.access.workspaces
  accounts : p.accounts = false → t.store.users = s.store.users
  replicas : p.connects = false → t.syncStates = s.syncStates
  active : p.switches = false → t.active = s.active
  inlining : p ≠ .inlining → t.runInline = s.runInline
  turns : p.queues = false → t.turns = s.turns
  nextTurn : p ≠ .push → p ≠ .start → t.nextTurn = s.nextTurn
  begins : p ≠ .start → p ≠ .begin → t.begins = s.begins
  reads : s.reads ≤ t.reads
  events : ∃ more, t.events = s.events ++ more ∧
    (p ≠ .patch → ∀ e ∈ more, e.event.isPatch = false)

/-- What is as it was but for the kind's own components. -/
private theorem frame_of_eq (hreads : s.reads ≤ t.reads)
    (hevents : ∃ more, t.events = s.events ++ more ∧ ∀ e ∈ more, e.event.isPatch = false)
    (huser : t.cfg.user = s.cfg.user := by rfl)
    (horganisation : t.cfg.organisation = s.cfg.organisation := by rfl)
    (hslots : t.cfg.slots = s.cfg.slots := by rfl)
    (hregistry : p ≠ .package → t.registry = s.registry := by first | exact fun _ => rfl | simp)
    (hdocs : p.writes = false → t.docs = s.docs := by first | exact fun _ => rfl | nofun)
    (hdag : p.commits = false → t.dag = s.dag := by first | exact fun _ => rfl | nofun)
    (hrecords : p.records = false → t.store.documents = s.store.documents := by
      first | exact fun _ => rfl | nofun)
    (hadmitted : p.admits = false → t.access.documents = s.access.documents := by
      first | exact fun _ => rfl | nofun)
    (hworkspaces : p.governs = false → t.access.workspaces = s.access.workspaces := by
      first | exact fun _ => rfl | nofun)
    (haccounts : p.accounts = false → t.store.users = s.store.users := by
      first | exact fun _ => rfl | nofun)
    (hreplicas : p.connects = false → t.syncStates = s.syncStates := by
      first | exact fun _ => rfl | nofun)
    (hactive : p.switches = false → t.active = s.active := by
      first | exact fun _ => rfl | nofun)
    (hinlining : p ≠ .inlining → t.runInline = s.runInline := by
      first | exact fun _ => rfl | simp)
    (hturns : p.queues = false → t.turns = s.turns := by first | exact fun _ => rfl | nofun)
    (hnext : p ≠ .push → p ≠ .start → t.nextTurn = s.nextTurn := by
      first | exact fun _ _ => rfl | simp)
    (hbegins : p ≠ .start → p ≠ .begin → t.begins = s.begins := by
      first | exact fun _ _ => rfl | simp) : Act.Frame p s t :=
  let ⟨more, happ, hev⟩ := hevents
  ⟨huser, horganisation, hslots, hregistry, hdocs, hdag, hrecords, hadmitted, hworkspaces,
    haccounts, hreplicas, hactive, hinlining, hturns, hnext, hbegins, hreads, more, happ, fun _ => hev⟩

theorem Act.frame (hp : p.plain = true) (h : Act p s t) : Act.Frame p s t := by
  have hsame : ∃ more, s.events = s.events ++ more ∧ ∀ e ∈ more, e.event.isPatch = false :=
    ⟨[], by simp, by simp⟩
  cases p
  case finish => cases hp
  case enter => cases hp
  case note =>
    obtain ⟨_, _, _, _, events, hreads, hev, rfl⟩ := h
    exact frame_of_eq hreads ⟨events, rfl, hev⟩
  case patch =>
    obtain ⟨doc, peer, rfl⟩ := h
    obtain ⟨_, events, hrun⟩ := syncReplica_run doc peer s
    rw [hrun]
    exact ⟨rfl, rfl, rfl, fun _ => rfl, fun _ => rfl, fun _ => rfl, fun _ => rfl, fun _ => rfl,
      fun _ => rfl, fun _ => rfl, nofun, fun _ => rfl, fun _ => rfl, fun _ => rfl, fun _ _ => rfl,
      fun _ _ => rfl, Nat.le_refl _, events, rfl,
      fun h => absurd rfl h⟩
  case start =>
    obtain ⟨_, _, events, _, hev, rfl⟩ := h
    exact frame_of_eq (Nat.le_refl _) ⟨events, rfl, hev⟩
  case begin =>
    obtain ⟨_, events, _, hev, rfl⟩ := h
    exact frame_of_eq (Nat.le_refl _) ⟨events, rfl, hev⟩
  case bring =>
    obtain ⟨_, _, _, _, _, events, _, _, _, _, _, _, hreads, hev, rfl⟩ := h
    exact frame_of_eq hreads ⟨events, rfl, hev⟩
  case exported =>
    obtain ⟨_, _, _, _, _, _, _, _, _, _, _, hreads, rfl⟩ := h
    exact frame_of_eq hreads hsame
  case mail =>
    obtain ⟨message, _, rfl⟩ := h
    unfold post
    rw [run_modify]
    dsimp only
    split <;> exact frame_of_eq (Nat.le_refl _) hsame
  case unreplica => obtain ⟨_, _, rfl | rfl⟩ := h <;> exact frame_of_eq (Nat.le_refl _) hsame
  case member =>
    obtain ⟨_, _, _, rfl⟩ := h
    exact ⟨rfl, rfl, rfl, fun _ => rfl, fun _ => rfl, fun _ => rfl, fun _ => rfl,
      fun _ => AccessControl.documents_workspaceMut .., nofun, fun _ => rfl, fun _ => rfl,
      fun _ => rfl, fun _ => rfl, fun _ => rfl, fun _ _ => rfl, fun _ _ => rfl, Nat.le_refl _, [],
      by simp, by simp⟩
  case tighten =>
    obtain ⟨_, access, haccess, rfl⟩ := h
    obtain ⟨_, -, rfl⟩ := AccessControl.setDocumentAcl_ok haccess
    refine ⟨rfl, rfl, rfl, fun _ => rfl, fun _ => rfl, fun _ => rfl, nofun, nofun, fun _ => rfl,
      fun _ => ?_, fun _ => rfl, fun _ => rfl, fun _ => rfl, fun _ => rfl, fun _ _ => rfl,
      fun _ _ => rfl, Nat.le_refl _, [], by simp, by simp⟩
    dsimp only
    split <;> rfl
  -- the rest make their one change, and note nothing
  all_goals
    first
    | obtain ⟨_, rfl⟩ := h
    | obtain ⟨_, _, rfl⟩ := h
    | obtain ⟨_, _, _, rfl⟩ := h
    | obtain ⟨_, _, _, _, rfl⟩ := h
    | obtain ⟨_, _, _, _, _, rfl⟩ := h
    | obtain ⟨_, _, _, _, _, _, rfl⟩ := h
    | obtain ⟨_, _, _, _, _, _, _, rfl⟩ := h
    first
    | exact frame_of_eq (Nat.le_refl _) hsame
    | exact frame_of_eq (Nat.le_add_right _ _) hsame

/-! ### The end of a turn opened up -/

/-- Some kinds of acts, the end of a turn among them opened up into those it is made of. -/
def fine (ps : List Part) : List Part :=
  ps.flatMap fun p => if p = .finish then queueActs else [p]

theorem mem_fine {q : Part} (hp : p ∈ ps) (hne : p ≠ .finish) (hq : q = p) : q ∈ fine ps := by
  subst hq
  exact List.mem_flatMap.2 ⟨q, hp, by simp [hne]⟩

/-- From a sound queue nothing goes but by single acts. -/
theorem Core.Sound.opened (hs : s.Sound) (h : Does Act ps s t) : Does Act (fine ps) s t := by
  refine (h.preserves (I := fun t => t.Sound ∧ Does Act (fine ps) s t) ?_ ⟨hs, .refl⟩).2
  rintro p hp u v hact ⟨hu, hdoes⟩
  refine ⟨hu.step hact, ?_⟩
  by_cases hfinish : p = .finish
  · subst hfinish
    refine hdoes.trans ((hact.finish_acts hu).1.mono fun q hq => ?_)
    exact List.mem_flatMap.2 ⟨.finish, hp, by simpa using hq⟩
  · exact hdoes.tail hact (mem_fine hp hfinish rfl)

/-- **What acts keep, a sound queue along**: what every single act of these kinds keeps. -/
theorem Core.Sound.keeps {I : Core H → Prop} (hs : s.Sound) (h : Does Act ps s t)
    (hact : ∀ p ∈ fine ps, ∀ s t, s.Sound → Act p s t → I s → I t) (hi : I s) : I t := by
  refine ((hs.opened h).preserves (I := fun t => t.Sound ∧ I t) ?_ ⟨hs, hi⟩).2
  rintro p hp u v hpact ⟨hu, hv⟩
  exact ⟨hu.step hpact, hact p hp u v hu hpact hv⟩

end LocalSpace
