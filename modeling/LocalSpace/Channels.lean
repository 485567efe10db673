import LocalSpace.Sessions
import LocalSpace.Library.Runs

/-!
# A session on the server's channels

`auth.rs`, `ws.rs` and `surfaces.rs` over the accounts: a request under `/api/v1` presents a
session's id and is let through as its user; a socket is opened so, and looks again at its ticks;
a file of a view is asked for under a grant, which names a user and no session. What is let through
is handed to Core later: a request when its body has come, a frame when its task runs.

Once a session has ended and the sockets opened with it have had their next tick, nothing more is
let through on the first two channels, and what the first lets through has the roles of its user's
record at that moment (`over_on_channels`). A grant outlives the session it was opened under
(`grant_outlives`).
-/

namespace LocalSpace

namespace Channels

open Directory

variable (V : Vault)

/-- An open stream: as whom, and the id it was opened with. -/
structure Socket where
  caller : Caller
  presented : String
  isOpen : Bool

/-- What a surface's files are served with; for the statements, the id it was opened under. -/
structure Grant where
  user : UserId
  harness : String
  view : String
  presented : String

inductive Way where
  | api | frame | file
  deriving DecidableEq

/-- A request let through to Core; for the statements, its user's record then. -/
structure Passed where
  way : Way
  presented : String
  caller : Caller
  record : Option Directory.UserRecord

/-- A request let through, whose body is still to come or whose task is still to run; for a view that
is to be opened, whose view it is and which. -/
structure Waiting where
  request : Passed
  surface : Option (String × String)

/-- The server: what it let through and has not handed to Core yet, and what Core was handed. -/
structure State where
  directory : Directory
  nowMs : Nat
  sockets : List Socket
  grants : List Grant
  waiting : List Waiting
  passed : List Passed

/-- A server with no accounts yet. -/
@[grind =]
def State.start : State where
  directory := {}
  nowMs := 0
  sockets := []
  grants := []
  waiting := []
  passed := []

/-- What comes next. -/
inductive Act where
  /-- accounts and sessions: signing in and out, revoking, changing roles, disabling -/
  | call (op : Op)
  | wait (ms : Nat)
  | request (id : String)
  | upgrade (id : String)
  | frame (socket : Nat)
  | tick (socket : Nat)
  /-- the other end closes a socket, or it breaks -/
  | close (socket : Nat)
  | openSurface (id harness view : String)
  | file (grant : Nat)
  /-- Core is handed what was let through; `found`, where it has the view asked for -/
  | hand (request : Nat) (found : Bool)
  /-- the other end breaks a request off -/
  | breakOff (request : Nat)
  /-- a grant goes, when there are too many -/
  | dropGrant (grant : Nat)
  /-- the server starts again on its database -/
  | restart

namespace State

variable (s : State)

/-- `authenticate`, in organisation mode. -/
def authenticate (id ip : String) : Option Caller :=
  (s.directory.session V id s.nowMs).map fun found =>
    { user := found.1.id
      session := String.ofList ((keyOf V id).toList.take 12)
      ip := if ip = "" then found.2.ip else ip
      roles := found.1.roles
      groups := [] }

/-- `caller_named`, in organisation mode. -/
def callerNamed (user : UserId) : Caller where
  user := user
  session := ""
  ip := ""
  roles := []
  groups := []

def letThrough (way : Way) (presented : String) (caller : Caller)
    (surface : Option (String × String)) : State :=
  { s with waiting := s.waiting ++
      [⟨⟨way, presented, caller, s.directory.getUser caller.user⟩, surface⟩] }

/-- `require`, which has a request's head alone. -/
@[grind =]
def request (id : String) : State :=
  match s.authenticate V id "" with
  | some caller => s.letThrough .api id caller none
  | none => s

/-- `upgrade`. -/
@[grind =]
def upgrade (id : String) : State :=
  match s.authenticate V id "" with
  | some caller => { s with sockets := s.sockets ++ [⟨caller, id, true⟩] }
  | none => s

/-- `serve`: a frame with a request. -/
@[grind =]
def frame (i : Nat) : State :=
  match s.sockets[i]? with
  | some socket =>
    if socket.isOpen then s.letThrough .frame socket.presented socket.caller none else s
  | none => s

def close (i : Nat) : State :=
  { s with sockets := s.sockets.modify i fun socket => { socket with isOpen := false } }

/-- `serve`: a tick of the clock by which a socket looks whether its session is live. -/
@[grind =]
def tick (i : Nat) : State :=
  match s.sockets[i]? with
  | some socket => if (s.authenticate V socket.presented "").isNone then s.close i else s
  | none => s

/-- `open`: Core is to be asked for the view's entry. -/
@[grind =]
def openSurface (id harness view : String) : State :=
  match s.authenticate V id "" with
  | some caller => s.letThrough .api id caller (some (harness, view))
  | none => s

/-- `surfaces::serve`: a file that Core is to be asked for. -/
@[grind =]
def file (i : Nat) : State :=
  match s.grants[i]? with
  | some grant => s.letThrough .file grant.presented (callerNamed grant.user) none
  | none => s

/-- `call_as`; where Core has a view's entry, a grant is made. -/
@[grind =]
def hand (i : Nat) (found : Bool) : State :=
  match s.waiting[i]? with
  | some w =>
    { s with
      waiting := s.waiting.eraseIdx i
      passed := s.passed ++ [w.request]
      grants := s.grants ++ ((w.surface.filter fun _ => found).map fun p =>
        ⟨w.request.caller.user, p.1, p.2, w.request.presented⟩).toList }
  | none => s

def restart : State :=
  { s with
    directory := s.directory.after V ⟨.restart, s.nowMs⟩, grants := [], waiting := []
    sockets := s.sockets.map fun socket => { socket with isOpen := false } }

@[grind =]
def step : Act → State
  | .call op => { s with directory := s.directory.after V ⟨op, s.nowMs⟩ }
  | .wait ms => { s with nowMs := s.nowMs + ms }
  | .request id => s.request V id
  | .upgrade id => s.upgrade V id
  | .frame i => s.frame i
  | .tick i => s.tick V i
  | .close i => s.close i
  | .openSurface id harness view => s.openSurface V id harness view
  | .file i => s.file i
  | .hand i found => s.hand i found
  | .breakOff i => { s with waiting := s.waiting.eraseIdx i }
  | .dropGrant i => { s with grants := s.grants.eraseIdx i }
  | .restart => s.restart V

@[grind =]
def run (acts : List Act) : State :=
  acts.foldl (step V) s

end State

/-- An id was given out, and its session is over: signed out, revoked, disabled or expired. -/
def Ended (s : State) (id : String) : Prop :=
  (∃ n < s.directory.drawn, id = V.token n) ∧ s.directory.session V id s.nowMs = none

/-- A request under a session by its id, or by a frame on a socket. -/
def Passed.IsUnder (id : String) (p : Passed) : Prop :=
  p.presented = id ∧ p.way ≠ .file

instance (id : String) (p : Passed) : Decidable (p.IsUnder id) :=
  inferInstanceAs (Decidable (_ ∧ _))

/-- What Core was handed under a session. -/
def State.under (s : State) (id : String) : List Passed :=
  s.passed.filter fun p => p.IsUnder id

/-- What is still to be handed to Core under a session. -/
def State.awaited (s : State) (id : String) : List Passed :=
  (s.waiting.map Waiting.request).filter fun p => p.IsUnder id

/-! ### What each step keeps -/

/-- What every state has that is reached. -/
structure Sound (s : State) : Prop where
  registered : Registered V s.directory
  owned : Owned V s.directory
  /-- what is let through by an id has the roles of the record -/
  roles : ∀ p ∈ s.passed ++ s.waiting.map Waiting.request, p.way = .api →
    ∃ u, p.record = some u ∧ p.caller.user = u.id ∧ p.caller.roles = u.roles

section Steps

variable {V} {s : State} {id : String}

theorem sound_start : Sound V State.start where
  registered := .empty
  owned := fun id user expiresMs h => by
    simp [Directory.unrevoked, getSession, State.start] at h
  roles := nofun

/-- Whom an id stands for is the account its session is of. -/
theorem authenticate_spec (hreg : Registered V s.directory) {ip : String} {caller : Caller}
    (h : s.authenticate V id ip = some caller) :
    ∃ u, s.directory.getUser caller.user = some u ∧ caller.user = u.id ∧
      caller.roles = u.roles := by
  obtain ⟨⟨u, record⟩, hfound, rfl⟩ := Option.map_eq_some_iff.mp h
  rw [session] at hfound
  split at hfound
  · cases hfound
  · next record' _ =>
    split at hfound
    · cases hfound
    · split at hfound
      · cases hfound
      · next u' hu =>
        split at hfound
        · cases hfound
        · cases hfound
          have hid := hreg.keyed _ _ hu
          refine ⟨u, ?_, rfl, rfl⟩
          rw [hid]
          exact hu

theorem Sound.letThrough (h : Sound V s) {way : Way} {presented : String} {caller : Caller}
    {surface : Option (String × String)}
    (hway : way = .api → ∃ u, s.directory.getUser caller.user = some u ∧ caller.user = u.id ∧
      caller.roles = u.roles) : Sound V (s.letThrough way presented caller surface) := by
  refine ⟨h.registered, h.owned, fun p hp hapi => ?_⟩
  rw [State.letThrough, List.map_append, ← List.append_assoc] at hp
  obtain hp | hp := List.mem_append.mp hp
  · exact h.roles p hp hapi
  · rw [List.map_singleton, List.mem_singleton] at hp
    rw [hp] at hapi ⊢
    exact hway hapi

/-- What was let through and not handed to Core is handed or goes. -/
theorem Sound.fewer {t : State} (h : Sound V s) (hd : t.directory = s.directory)
    (hsub : t.passed ++ t.waiting.map Waiting.request ⊆
      s.passed ++ s.waiting.map Waiting.request) : Sound V t :=
  ⟨hd ▸ h.registered, hd ▸ h.owned, fun p hp => h.roles p (hsub hp)⟩

theorem hand_subset (s : State) (i : Nat) (found : Bool) :
    (s.hand i found).passed ++ (s.hand i found).waiting.map Waiting.request ⊆
      s.passed ++ s.waiting.map Waiting.request := by
  rw [State.hand]
  split
  · next w hw =>
    intro p hp
    simp only [List.append_assoc, List.mem_append, List.mem_singleton] at hp ⊢
    obtain hp | rfl | hp := hp
    · exact .inl hp
    · exact .inr (List.mem_map_of_mem (List.mem_of_getElem? hw))
    · exact .inr (((List.eraseIdx_sublist _ i).map _).subset hp)
  · exact List.Subset.refl _

theorem hand_directory (s : State) (i : Nat) (found : Bool) :
    (s.hand i found).directory = s.directory ∧ (s.hand i found).nowMs = s.nowMs ∧
      (s.hand i found).sockets = s.sockets := by
  rw [State.hand]
  split
  · exact ⟨rfl, rfl, rfl⟩
  · exact ⟨rfl, rfl, rfl⟩

theorem Sound.step (hblake : Function.Injective V.blake3) (huuid : Function.Injective V.uuid)
    (h : Sound V s) (a : Act) : Sound V (s.step V a) := by
  have hafter : ∀ c, Registered V (s.directory.after V c) ∧ Owned V (s.directory.after V c) :=
    fun c => ⟨(perform_did _ c).registered huuid h.registered,
      (perform_did _ c).owned hblake huuid h.registered h.owned⟩
  have hfiled : ∀ way presented caller, way ≠ .api →
      Sound V (s.letThrough way presented caller none) :=
    fun way presented caller hne => h.letThrough fun heq => absurd heq hne
  cases a with
  | call op => exact ⟨(hafter _).1, (hafter _).2, h.roles⟩
  | wait ms => exact ⟨h.registered, h.owned, h.roles⟩
  | request id =>
    rw [State.step, State.request]
    split
    · next caller hcaller => exact h.letThrough fun _ => authenticate_spec h.registered hcaller
    · exact h
  | upgrade id =>
    rw [State.step, State.upgrade]
    split
    · exact ⟨h.registered, h.owned, h.roles⟩
    · exact h
  | frame i =>
    rw [State.step, State.frame]
    split
    · split
      · exact hfiled _ _ _ nofun
      · exact h
    · exact h
  | tick i =>
    rw [State.step, State.tick]
    split
    · split
      · exact ⟨h.registered, h.owned, h.roles⟩
      · exact h
    · exact h
  | close i => exact ⟨h.registered, h.owned, h.roles⟩
  | openSurface id harness view =>
    rw [State.step, State.openSurface]
    split
    · next caller hcaller => exact h.letThrough fun _ => authenticate_spec h.registered hcaller
    · exact h
  | file i =>
    rw [State.step, State.file]
    split
    · exact hfiled _ _ _ nofun
    · exact h
  | hand i found => exact h.fewer (hand_directory s i found).1 (hand_subset s i found)
  | breakOff i =>
    refine h.fewer rfl (List.append_subset.mpr ⟨List.subset_append_left _ _, ?_⟩)
    exact List.subset_append_of_subset_right _ ((List.eraseIdx_sublist _ i).map _).subset
  | dropGrant i => exact ⟨h.registered, h.owned, h.roles⟩
  | restart =>
    refine ⟨(hafter _).1, (hafter _).2, fun p hp => h.roles p (List.mem_append_left _ ?_)⟩
    simpa [State.step, State.restart] using hp

theorem Sound.run (hblake : Function.Injective V.blake3) (huuid : Function.Injective V.uuid)
    (h : Sound V s) (acts : List Act) : Sound V (s.run V acts) := by
  induction acts generalizing s with
  | nil => exact h
  | cons a acts ih => exact ih (h.step hblake huuid a)

/-! ### A session that is over -/

/-- The session of an id is not live where it is revoked, or its time is over. -/
theorem session_eq_none (h : Sound V s) : s.directory.session V id s.nowMs = none ↔
    ∀ user expiresMs, s.directory.unrevoked V id = some (user, expiresMs) →
      expiresMs ≤ s.nowMs := by
  have hlive := fun user => @session_iff V s.directory id user h.registered h.owned s.nowMs
  constructor
  · intro hnone user expiresMs hunrevoked
    by_contra hlater
    have hsome := (hlive user).mpr ⟨expiresMs, hunrevoked, Nat.lt_of_not_le hlater⟩
    rw [hnone] at hsome
    cases hsome
  · intro hover
    cases hsession : s.directory.session V id s.nowMs with
    | none => rfl
    | some found =>
      obtain ⟨expiresMs, hunrevoked, hlater⟩ := (hlive found.1.id).mp (by rw [hsession]; rfl)
      exact absurd (hover _ _ hunrevoked) (Nat.not_le_of_lt hlater)

/-- No call brings a session back. -/
theorem Ended.call (hblake : Function.Injective V.blake3) (huuid : Function.Injective V.uuid)
    (htoken : Function.Injective V.token) (h : Sound V s) (hended : Ended V s id) (op : Op) :
    Ended V (s.step V (.call op)) id := by
  obtain ⟨⟨n, hn, rfl⟩, hnone⟩ := hended
  have hdid := perform_did (V := V) s.directory ⟨op, s.nowMs⟩
  refine ⟨⟨n, Nat.lt_of_lt_of_le hn hdid.drawn_le, rfl⟩, ?_⟩
  rw [session_eq_none h] at hnone
  refine (session_eq_none (h.step hblake huuid (.call op))).mpr fun user expiresMs hlive => ?_
  have hleaves := hdid.unrevoked hblake h.owned (V.token n)
  change (s.directory.after V ⟨op, s.nowMs⟩).unrevoked V (V.token n) = _ at hlive
  rw [after, hleaves] at hlive
  cases hanswer : (s.directory.perform V ⟨op, s.nowMs⟩).1 with
  | signedIn signed =>
    rw [hanswer, Op.leaves] at hlive
    split at hlive
    · next heq =>
      -- an id is given out once
      obtain ⟨⟨m, hm, -, hm'⟩, -⟩ := hdid.issued hanswer
      rw [heq] at hm'
      have hsame := htoken hm'
      omega
    · exact hnone user expiresMs hlive
  | _ =>
    rw [hanswer] at hlive
    exact hnone user expiresMs (Option.filter_eq_some_iff.mp hlive).1

theorem Ended.congr {t : State} (h : Ended V s id) (hd : t.directory = s.directory)
    (hnow : t.nowMs = s.nowMs) : Ended V t id := by
  rw [Ended, hd, hnow]
  exact h

theorem Ended.not_authenticated (h : Ended V s id) (ip : String) :
    s.authenticate V id ip = none := by
  rw [State.authenticate, h.2]
  rfl

theorem Ended.step (hblake : Function.Injective V.blake3) (huuid : Function.Injective V.uuid)
    (htoken : Function.Injective V.token) (h : Sound V s) (hended : Ended V s id) (a : Act) :
    Ended V (s.step V a) id := by
  cases a with
  | call op => exact hended.call hblake huuid htoken h op
  | wait ms =>
    refine ⟨hended.1, ?_⟩
    have hnone := (session_eq_none h).mp hended.2
    refine (session_eq_none (h.step hblake huuid (.wait ms))).mpr fun user expiresMs hlive => ?_
    exact Nat.le_add_right_of_le (hnone user expiresMs hlive)
  | request id =>
    rw [State.step, State.request]
    split
    · exact hended.congr rfl rfl
    · exact hended
  | upgrade id =>
    rw [State.step, State.upgrade]
    split
    · exact hended.congr rfl rfl
    · exact hended
  | frame i =>
    rw [State.step, State.frame]
    split
    · split
      · exact hended.congr rfl rfl
      · exact hended
    · exact hended
  | tick i =>
    rw [State.step, State.tick]
    split
    · split
      · exact hended.congr rfl rfl
      · exact hended
    · exact hended
  | close i => exact hended.congr rfl rfl
  | openSurface id harness view =>
    rw [State.step, State.openSurface]
    split
    · exact hended.congr rfl rfl
    · exact hended
  | file i =>
    rw [State.step, State.file]
    split
    · exact hended.congr rfl rfl
    · exact hended
  | hand i found => exact hended.congr (hand_directory s i found).1 (hand_directory s i found).2.1
  | breakOff i => exact hended.congr rfl rfl
  | dropGrant i => exact hended.congr rfl rfl
  | restart => exact (hended.call hblake huuid htoken h .restart).congr rfl rfl

/-- The socket at a place was not opened with an id, or is closed. -/
def ClosedAt (s : State) (id : String) (i : Nat) : Prop :=
  ∀ socket, s.sockets[i]? = some socket → socket.presented = id → socket.isOpen = false

theorem ClosedAt.congr {t : State} {i : Nat} (h : ClosedAt s id i)
    (hsockets : t.sockets = s.sockets) : ClosedAt t id i := by
  rw [ClosedAt, hsockets]
  exact h

theorem ClosedAt.close {i : Nat} (h : ClosedAt s id i) (j : Nat) : ClosedAt (s.close j) id i := by
  intro socket hsocket hid
  rw [State.close, List.getElem?_modify] at hsocket
  obtain ⟨before, hbefore, rfl⟩ := Option.map_eq_some_iff.mp hsocket
  split
  · rfl
  · next hne =>
    rw [if_neg hne] at hid
    exact h before hbefore hid

/-- Its next tick closes a socket whose session has ended. -/
theorem closedAt_tick (hended : Ended V s id) (i : Nat) : ClosedAt (s.step V (.tick i)) id i := by
  rw [State.step, State.tick]
  split
  · next socket hsocket =>
    by_cases hid : socket.presented = id
    · rw [hid, hended.not_authenticated, Option.isNone_none, if_pos rfl]
      intro after hafter _
      rw [State.close, List.getElem?_modify] at hafter
      obtain ⟨before, hbefore, rfl⟩ := Option.map_eq_some_iff.mp hafter
      rw [if_pos rfl]
    · have hother : ClosedAt s id i := by
        intro socket' hsocket' hid'
        rw [hsocket] at hsocket'
        cases hsocket'
        exact absurd hid' hid
      split
      · exact hother.close i
      · exact hother
  · next hnone =>
    intro socket hsocket
    rw [hnone] at hsocket
    cases hsocket

/-- A closed socket stays so, and no other is opened with the id of an ended session. -/
theorem ClosedAt.step (hended : Ended V s id) {i : Nat} (h : ClosedAt s id i) (a : Act) :
    ClosedAt (s.step V a) id i := by
  cases a with
  | call op => exact h.congr rfl
  | wait ms => exact h.congr rfl
  | request id =>
    rw [State.step, State.request]
    split
    · exact h.congr rfl
    · exact h
  | upgrade id' =>
    rw [State.step, State.upgrade]
    split
    · next caller hcaller =>
      intro socket hsocket hid
      rw [List.getElem?_append] at hsocket
      split at hsocket
      · exact h socket hsocket hid
      · have hmem := List.mem_of_getElem? hsocket
        rw [List.mem_singleton.mp hmem] at hid
        change id' = id at hid
        rw [hid, hended.not_authenticated] at hcaller
        cases hcaller
    · exact h
  | frame j =>
    rw [State.step, State.frame]
    split
    · split
      · exact h.congr rfl
      · exact h
    · exact h
  | tick j =>
    rw [State.step, State.tick]
    split
    · split
      · exact h.close j
      · exact h
    · exact h
  | close j => exact h.close j
  | openSurface id harness view =>
    rw [State.step, State.openSurface]
    split
    · exact h.congr rfl
    · exact h
  | file j =>
    rw [State.step, State.file]
    split
    · exact h.congr rfl
    · exact h
  | hand j found => exact h.congr (hand_directory s j found).2.2
  | breakOff j => exact h.congr rfl
  | dropGrant j => exact h.congr rfl
  | restart =>
    intro socket hsocket _
    rw [State.step, State.restart, List.getElem?_map] at hsocket
    obtain ⟨before, -, rfl⟩ := Option.map_eq_some_iff.mp hsocket
    rfl

/-- What Core is handed under a session was let through before: it goes from what is awaited. -/
def Only (id : String) (s t : State) : Prop :=
  ∃ handed, t.under id = s.under id ++ handed ∧ (handed ++ t.awaited id).Subperm (s.awaited id)

theorem Only.refl (s : State) (id : String) : Only id s s :=
  ⟨[], (List.append_nil _).symm, .refl _⟩

theorem Only.trans {s t u : State} (hst : Only id s t) (htu : Only id t u) : Only id s u := by
  obtain ⟨handed, hunder, hsub⟩ := hst
  obtain ⟨handed', hunder', hsub'⟩ := htu
  refine ⟨handed ++ handed', by rw [hunder', hunder, List.append_assoc], ?_⟩
  rw [List.append_assoc]
  exact ((List.subperm_append_left handed).mpr hsub').trans hsub

theorem only_letThrough {way : Way} {presented : String} {caller : Caller}
    {surface : Option (String × String)} (hother : presented = id → way = .file) :
    Only id s (s.letThrough way presented caller surface) := by
  refine ⟨[], (List.append_nil _).symm, ?_⟩
  rw [List.nil_append, State.awaited, State.letThrough, List.map_append, List.filter_append,
    List.map_singleton, List.filter_cons_of_neg, List.filter_nil, List.append_nil]
  · exact .refl _
  · rw [decide_eq_true_iff]
    rintro ⟨hid, hway⟩
    exact hway (hother hid)

theorem only_hand (s : State) (i : Nat) (found : Bool) : Only id s (s.hand i found) := by
  rw [State.hand]
  split
  · next w hw =>
    obtain ⟨hi, rfl⟩ := List.getElem?_eq_some_iff.mp hw
    have hperm := ((List.getElem_cons_eraseIdx_perm hi).map Waiting.request).filter
      fun p => p.IsUnder id
    refine ⟨[s.waiting[i].request].filter fun p => p.IsUnder id, List.filter_append .., ?_⟩
    rw [State.awaited, State.awaited, ← List.filter_append]
    exact hperm.subperm
  · exact .refl s id

/-- Nothing more is let through under a session that is over on every socket. -/
theorem only_step (hended : Ended V s id) (hclosed : ∀ i, ClosedAt s id i) (a : Act) :
    Only id s (s.step V a) := by
  have hauthenticated : ∀ {id' ip caller}, s.authenticate V id' ip = some caller →
      id' ≠ id := by
    rintro id' ip caller hcaller rfl
    rw [hended.not_authenticated] at hcaller
    cases hcaller
  cases a with
  | call op => exact .refl s id
  | wait ms => exact .refl s id
  | request id' =>
    rw [State.step, State.request]
    split
    · next caller hcaller => exact only_letThrough fun hid => absurd hid (hauthenticated hcaller)
    · exact .refl s id
  | upgrade id' =>
    rw [State.step, State.upgrade]
    split
    · exact .refl s id
    · exact .refl s id
  | frame i =>
    rw [State.step, State.frame]
    split
    · next socket hsocket =>
      split
      · next hopen =>
        refine only_letThrough fun hid => ?_
        rw [hclosed i socket hsocket hid] at hopen
        cases hopen
      · exact .refl s id
    · exact .refl s id
  | tick i =>
    rw [State.step, State.tick]
    split
    · split
      · exact .refl s id
      · exact .refl s id
    · exact .refl s id
  | close i => exact .refl s id
  | openSurface id' harness view =>
    rw [State.step, State.openSurface]
    split
    · next caller hcaller => exact only_letThrough fun hid => absurd hid (hauthenticated hcaller)
    · exact .refl s id
  | file i =>
    rw [State.step, State.file]
    split
    · exact only_letThrough fun _ => rfl
    · exact .refl s id
  | hand i found => exact only_hand s i found
  | breakOff i =>
    refine ⟨[], (List.append_nil _).symm, ?_⟩
    exact (((List.eraseIdx_sublist _ i).map _).filter _).subperm
  | dropGrant i => exact .refl s id
  | restart => exact ⟨[], (List.append_nil _).symm, List.nil_subperm⟩

/-- A session that has ended stays so, and the sockets that tick are closed to it. -/
theorem ended_run (hblake : Function.Injective V.blake3) (huuid : Function.Injective V.uuid)
    (htoken : Function.Injective V.token) (h : Sound V s) (hended : Ended V s id)
    (acts : List Act) : Ended V (s.run V acts) id ∧
      ∀ i, (ClosedAt s id i ∨ .tick i ∈ acts) → ClosedAt (s.run V acts) id i := by
  induction acts generalizing s with
  | nil => exact ⟨hended, fun i hi => hi.resolve_right List.not_mem_nil⟩
  | cons a acts ih =>
    obtain ⟨hlater, hclosed⟩ := ih (h.step hblake huuid a) (hended.step hblake huuid htoken h a)
    refine ⟨hlater, fun i hi => hclosed i ?_⟩
    obtain hi | hi := hi
    · exact .inl (hi.step hended a)
    · obtain heq | hi := List.mem_cons.mp hi
      · exact .inl (heq ▸ closedAt_tick hended i)
      · exact .inr hi

theorem only_run (hblake : Function.Injective V.blake3) (huuid : Function.Injective V.uuid)
    (htoken : Function.Injective V.token) (h : Sound V s) (hended : Ended V s id)
    (hclosed : ∀ i, ClosedAt s id i) (acts : List Act) : Only id s (s.run V acts) := by
  induction acts generalizing s with
  | nil => exact .refl s id
  | cons a acts ih =>
    exact (only_step hended hclosed a).trans
      (ih (h.step hblake huuid a) (hended.step hblake huuid htoken h a)
        fun i => (hclosed i).step hended a)

end Steps

/-- **An ended session is over** by its id and on its sockets: in every run, once a session has
ended and each socket opened with it has had a tick, nothing more is let through under it but files
of views, so that Core is handed no more than what was let through by then; and in every state what
was let through by an id had the roles of its user's record. -/
theorem over_on_channels {V : Vault} (hblake : Function.Injective V.blake3)
    (huuid : Function.Injective V.uuid) (htoken : Function.Injective V.token)
    (acts : List Act) :
    (∀ id, Ended V (State.start.run V acts) id → ∀ ticks, (∀ i socket,
      (State.start.run V acts).sockets[i]? = some socket → socket.presented = id →
        .tick i ∈ ticks) → ∀ more,
      Only id ((State.start.run V acts).run V ticks)
        (((State.start.run V acts).run V ticks).run V more)) ∧
    ∀ p ∈ (State.start.run V acts).passed, p.way = .api →
      ∃ u, p.record = some u ∧ p.caller.user = u.id ∧ p.caller.roles = u.roles := by
  have hsound : Sound V (State.start.run V acts) := sound_start.run hblake huuid acts
  refine ⟨fun id hended ticks hticks more => ?_,
    fun p hp => hsound.roles p (List.mem_append_left _ hp)⟩
  obtain ⟨hlater, hclosed⟩ := ended_run hblake huuid htoken hsound hended ticks
  refine only_run hblake huuid htoken (hsound.run hblake huuid ticks) hlater (fun i => ?_) more
  refine hclosed i ?_
  by_cases hi : ∃ socket, (State.start.run V acts).sockets[i]? = some socket ∧
      socket.presented = id
  · obtain ⟨socket, hsocket, hid⟩ := hi
    exact .inr (hticks i socket hsocket hid)
  · exact .inl fun socket hsocket hid => absurd ⟨socket, hsocket, hid⟩ hi

/-- The first administrator signs in, opens a view and a socket, asks for something whose body is yet
to come, and signs out. -/
def signedOut : List Act :=
  [.call .bootstrapInvite,
    .call (.acceptFirstAdmin "" "ana@example.org" "Ana" "correct horse battery" "" ""),
    .openSurface "ttt" "org.notes" "page", .hand 0 true, .upgrade "ttt", .frame 0, .hand 0 true,
    .request "ttt", .call (.logout "ttt")]

theorem signedOut_ended : Ended .plain (State.start.run .plain signedOut) "ttt" :=
  ⟨⟨3, by decide +kernel, by decide +kernel⟩, by decide +kernel⟩

/-- After the socket's tick, the request is handed to Core as it was let through, and nothing more. -/
theorem over_on_channels_ana :
    Only "ttt" ((State.start.run .plain signedOut).run .plain [.tick 0])
        (((State.start.run .plain signedOut).run .plain [.tick 0]).run .plain
          [.frame 0, .request "ttt", .hand 0 true, .hand 0 true]) ∧
      ∀ p ∈ (State.start.run .plain signedOut).passed, p.way = .api →
        ∃ u, p.record = some u ∧ p.caller.user = u.id ∧ p.caller.roles = u.roles := by
  obtain ⟨hover, hroles⟩ := over_on_channels Vault.plain_blake3_injective
    Vault.plain_uuid_injective Vault.plain_token_injective signedOut
  refine ⟨hover "ttt" signedOut_ended [.tick 0] (fun i socket hsocket _ => ?_) _, hroles⟩
  have hone : (State.start.run .plain signedOut).sockets.length = 1 := by decide +kernel
  obtain ⟨hi, -⟩ := List.getElem?_eq_some_iff.mp hsocket
  have hi : i = 0 := by omega
  exact List.mem_singleton.mpr (congrArg Act.tick hi)

/-- After that, and the socket's tick, a file is still asked for as her, without her role. -/
theorem grant_outlives :
    Ended .plain (State.start.run .plain signedOut) "ttt" ∧
    ((State.start.run .plain signedOut).run .plain [.tick 0, .hand 0 true, .frame 0]).waiting = [] ∧
    let after := (State.start.run .plain signedOut).run .plain
      [.tick 0, .hand 0 true, .file 0, .hand 0 true]
    (after.passed[3]?.map fun p => (p.way, p.presented, p.caller.user, p.caller.roles)) =
      some (.file, "ttt", "u_uu", []) ∧
    (after.passed[3]?.bind fun p => p.record.map fun u => (u.id, u.roles)) =
      some ("u_uu", [.admin]) := by
  refine ⟨signedOut_ended, ?_, ?_, ?_⟩
  · exact List.eq_nil_iff_length_eq_zero.mpr (by decide +kernel)
  · decide +kernel
  · decide +kernel

end Channels

end LocalSpace
