import Mathlib.Data.Finset.Basic
import Mathlib.Logic.Function.Basic
import Mathlib.Data.List.Lemmas
import LocalSpace.Library.Runs

/-!
# Replicas that keep up

Core sends a replica what it lacks whenever the document changes or the replica's message is taken
(`doc_changed`, `sync_replica`); a replica answers every message and sends its own changes
(`Replica.flush`). What each side keeps of the other is Automerge's sync state, which says nothing
more while a message is on its way: nothing is ever sent again.

Where no message to an open replica is lost, a replica's messages are taken as it sent them, and
Core forgets no replica for want of room, a replica that no message is on its way from or to holds
exactly what Core holds (`replicas_keep_up`).
-/

namespace LocalSpace

namespace Syncing

open Library

/-! ### Automerge's sync protocol -/

/-- What Automerge's sync is used for: the message that one side sends the other next, if any, and
what a message does to the side that takes it. A sync state knows the document as it was sent last
(`lastSent`), the other's as it was told last (`theirs`), and whether a message sent is not answered
yet (`inFlight`). A message tells its sender's document by its heads. -/
structure Protocol (Change : Type) where
  Sync : Type
  Message : Type
  fresh : Sync
  lastSent : Sync → Finset Change
  theirs : Sync → Option (Finset Change)
  inFlight : Sync → Bool
  told : Message → Finset Change
  generate : Finset Change → Sync → Option Message × Sync
  receive : Finset Change → Sync → Message → Finset Change × Sync

variable {Change : Type} [DecidableEq Change]

/-- What is relied on of Automerge. -/
structure Protocol.Sound (P : Protocol Change) : Prop where
  fresh : P.lastSent P.fresh = ∅ ∧ P.theirs P.fresh = none ∧ P.inFlight P.fresh = false
  /-- Nothing is sent where the other is known to be as far, or has not answered. -/
  silent : ∀ doc state, (P.generate doc state).1 = none → (P.generate doc state).2 = state ∧
    P.lastSent state = doc ∧ (P.theirs state = some doc ∨ P.inFlight state = true)
  waits : ∀ doc state, P.lastSent state = doc → P.inFlight state = true →
    (P.generate doc state).1 = none
  sends : ∀ doc state message, (P.generate doc state).1 = some message → P.told message = doc ∧
    P.lastSent (P.generate doc state).2 = doc ∧
    P.theirs (P.generate doc state).2 = P.theirs state ∧
    P.inFlight (P.generate doc state).2 = true
  /-- What is taken is an answer; what was sent last is kept, or begun anew, or is what the other
  has already. -/
  takes : ∀ doc state message, doc ⊆ (P.receive doc state message).1 ∧
    P.theirs (P.receive doc state message).2 = some (P.told message) ∧
    P.inFlight (P.receive doc state message).2 = false ∧
    (P.lastSent (P.receive doc state message).2 = P.lastSent state ∨
      P.lastSent (P.receive doc state message).2 = ∅ ∨
      P.lastSent (P.receive doc state message).2 = P.told message)

/-! ### Core and its replicas -/

/-- Who shows a replica: whether the account is read-only, and whether it holds `edit` on the
document. To open one it holds `view`. -/
structure Account where
  viewer : Bool
  edit : Bool

/-- One document in Core, with the accounts that replicas are shown to; the sync states of the
replicas Core has heard from, the one heard from longest ago first; the replicas that are open; and
the messages on their way, in the order sent. -/
structure State (P : Protocol Change) where
  doc : Finset Change
  accounts : String → Account
  known : List (String × P.Sync)
  replicas : String → Option (Finset Change × P.Sync)
  toCore : String → List P.Message
  toReplica : String → List P.Message

/-- What happens, in any order: the document is edited in Core, or an account is given other rights; a
surface opens a replica of what Core had, edits it, closes it; Core takes a request, a replica hears
an event, an event is lost. -/
inductive Act (Change : Type) where
  | edit (changes : Finset Change)
  | granted (peer : String) (account : Account)
  | opened (peer : String) (snapshot : Finset Change)
  | draw (peer : String) (changes : Finset Change)
  | closed (peer : String)
  | ended (peer : String)
  | sync (peer : String) (i : Nat)
  | hear (peer : String)
  | lost (peer : String) (i : Nat)

/-- `MAX_REPLICAS_PER_DOC`. -/
def maxReplicas : Nat := 32

namespace State

variable {P : Protocol Change} (s : State P)

@[grind =]
def start (P : Protocol Change) (doc : Finset Change) (accounts : String → Account) : State P where
  doc := doc
  accounts := accounts
  known := []
  replicas _ := none
  toCore _ := []
  toReplica _ := []

/-- Send one replica what it lacks, if anything. -/
def syncReplica (peer : String) : State P :=
  match s.known.lookup peer with
  | none => s
  | some state =>
    let r := P.generate s.doc state
    { s with
      known := s.known.map fun k => if k.1 = peer then (peer, r.2) else k
      toReplica := Function.update s.toReplica peer (s.toReplica peer ++ r.1.toList) }

/-- A document changed: every replica of it is sent what it lacks. -/
def docChanged : State P :=
  (s.known.map Prod.fst).foldl syncReplica s

/-- A replica's state put back as heard from last; where there are too many, the one heard from
longest ago makes room. -/
def putReplica (peer : String) (state : P.Sync) : State P :=
  let others := s.known.filter fun k => k.1 ≠ peer
  let room := if maxReplicas ≤ others.length then others.tail else others
  { s with known := room ++ [(peer, state)] }

/-- `Request::DocSync` is refused: the account is read-only, or has no `edit`. -/
def refuses (peer : String) : Bool :=
  (s.accounts peer).viewer || !(s.accounts peer).edit

/-- `Request::DocSync`; where it is refused, the replica's sync state is not looked for. -/
@[grind =]
def docSync (peer : String) (message : P.Message) : State P :=
  if s.refuses peer then s
  else
    let r := P.receive s.doc ((s.known.lookup peer).getD P.fresh) message
    let t := { s with doc := r.1 }.putReplica peer r.2
    if r.1 ≠ s.doc then t.docChanged else t.syncReplica peer

/-- `Replica.flush`: send everything Core does not have yet. -/
def flush (doc : Finset Change) : Nat → P.Sync → List P.Message → P.Sync × List P.Message
  | 0, state, sent => (state, sent)
  | n + 1, state, sent =>
    match P.generate doc state with
    | (none, state) => (state, sent)
    | (some message, state) => flush doc n state (sent ++ [message])

/-- A replica with a document and a sync state, which it sends what there is to send from. -/
def flushed (peer : String) (doc : Finset Change) (state : P.Sync) : State P :=
  let r := flush doc 16 state (s.toCore peer)
  { s with
    replicas := Function.update s.replicas peer (some (doc, r.1))
    toCore := Function.update s.toCore peer r.2 }

@[grind =]
def step : Act Change → State P
  | .edit changes =>
    if changes ⊆ s.doc then s else { s with doc := s.doc ∪ changes }.docChanged
  | .granted peer account => { s with accounts := Function.update s.accounts peer account }
  | .opened peer snapshot => s.flushed peer snapshot P.fresh
  | .draw peer changes =>
    match s.replicas peer with
    | none => s
    | some (doc, state) => s.flushed peer (doc ∪ changes) state
  | .closed peer => { s with replicas := Function.update s.replicas peer none }
  | .ended peer => { s with known := s.known.filter fun k => k.1 ≠ peer }
  | .sync peer i =>
    match (s.toCore peer)[i]? with
    | none => s
    | some message =>
      { s with toCore := Function.update s.toCore peer ((s.toCore peer).eraseIdx i) }.docSync peer
        message
  | .hear peer =>
    match s.toReplica peer with
    | [] => s
    | message :: rest =>
      let t := { s with toReplica := Function.update s.toReplica peer rest }
      match s.replicas peer with
      | none => t
      | some (doc, state) =>
        let r := P.receive doc state message
        t.flushed peer r.1 r.2
  | .lost peer i =>
    { s with toReplica := Function.update s.toReplica peer ((s.toReplica peer).eraseIdx i) }

/-- A replica is opened under a name of its own, of what Core had; Core hears that one has ended
when it has been closed. -/
def Enabled : Act Change → Prop
  | .opened peer snapshot => s.replicas peer = none ∧ s.known.lookup peer = none ∧
      s.toCore peer = [] ∧ s.toReplica peer = [] ∧ snapshot ⊆ s.doc
  | .ended peer => s.replicas peer = none
  | _ => True

end State

/-- Core with the replicas of one document. -/
@[grind =]
def system (P : Protocol Change) : System (State P) (Act Change) where
  step := State.step
  enabled := State.Enabled

/-- No message is on its way from an open replica, or to one. -/
def Quiet {P : Protocol Change} (s : State P) : Prop :=
  ∀ peer, s.replicas peer ≠ none → s.toCore peer = [] ∧ s.toReplica peer = []

/-- What a step must meet: a replica's requests are taken as it sent them, with room for its state
beside the others', and none of an open one is refused; and no event to an open replica is lost. -/
def Meets {P : Protocol Change} (s : State P) : Act Change → Prop
  | .sync peer i =>
    if s.refuses peer then s.replicas peer = none
    else i = 0 ∧ (s.known.filter fun k => k.1 ≠ peer).length < maxReplicas
  | .lost peer _ => s.replicas peer = none
  | _ => True

/-! ### One replica and Core -/

/-- How an open replica and Core stand to each other: what each has sent and been told, with the
messages on their way. -/
structure Joined (P : Protocol Change) (doc : Finset Change) (known : Option P.Sync)
    (replica : Finset Change) (state : P.Sync) (toCore toReplica : List P.Message) : Prop where
  told : ∀ message ∈ toCore, P.told message ⊆ replica
  toldCore : ∀ core, known = some core → ∀ x ∈ P.theirs core, x ⊆ replica
  heard : ∀ message ∈ toReplica, P.told message ⊆ doc
  heardReplica : ∀ x ∈ P.theirs state, x ⊆ doc
  sent : P.lastSent state ⊆ doc ∨ (∃ m, toCore.getLast? = some m ∧ P.told m = P.lastSent state) ∨
    toCore = [] ∧ ∃ core, known = some core ∧ P.theirs core = some (P.lastSent state)
  sentCore : ∀ core, known = some core → P.lastSent core ⊆ replica ∨
    (∃ m, toReplica.getLast? = some m ∧ P.told m = P.lastSent core) ∨
    toReplica = [] ∧ P.theirs state = some (P.lastSent core)
  reached : toCore = [] → known ≠ none
  answered : toCore = [] → toReplica = [] → ∀ core ∈ known,
    ¬(P.inFlight core = true ∧ P.inFlight state = true)

section Joined

omit [DecidableEq Change]

variable {P : Protocol Change} {doc doc' replica replica' : Finset Change} {known : Option P.Sync}
  {state core : P.Sync} {toCore toReplica : List P.Message} {m : P.Message}

/-- With nothing on its way and nothing more to say, both hold the same. -/
theorem Joined.same (hP : P.Sound) (h : Joined P doc known replica state [] [])
    (hsilent : (P.generate replica state).1 = none)
    (hsilentCore : ∀ core, known = some core → (P.generate doc core).1 = none) : replica = doc := by
  obtain ⟨core, hcore⟩ := Option.ne_none_iff_exists'.mp (h.reached rfl)
  subst hcore
  obtain ⟨-, hlast, htheirs⟩ := hP.silent _ _ hsilent
  obtain ⟨-, hlastCore, htheirsCore⟩ := hP.silent _ _ (hsilentCore core rfl)
  by_cases hflight : P.inFlight core = true
  · -- the replica has been answered
    have hnot : P.inFlight state ≠ true := fun hstate => h.answered rfl rfl core rfl ⟨hflight, hstate⟩
    have htold := htheirs.resolve_right hnot
    refine Finset.Subset.antisymm (h.heardReplica replica htold) ?_
    obtain hsub | ⟨m, hm, -⟩ | ⟨-, heq⟩ := h.sentCore core rfl
    · exact hlastCore ▸ hsub
    · cases hm
    · rw [htold, hlastCore, Option.some.injEq] at heq
      rw [heq]
  · -- Core has been
    have htold := htheirsCore.resolve_right hflight
    refine Finset.Subset.antisymm ?_ (h.toldCore core rfl doc htold)
    obtain hsub | ⟨m, hm, -⟩ | ⟨-, core', hcore', heq⟩ := h.sent
    · exact hlast ▸ hsub
    · cases hm
    · cases hcore'
      rw [htold, hlast, Option.some.injEq] at heq
      rw [heq]

theorem Joined.growCore (h : Joined P doc known replica state toCore toReplica)
    (hsub : doc ⊆ doc') : Joined P doc' known replica state toCore toReplica := by
  refine ⟨h.told, h.toldCore, fun m hm => (h.heard m hm).trans hsub,
    fun x hx => (h.heardReplica x hx).trans hsub, ?_, h.sentCore, h.reached, h.answered⟩
  obtain hin | hrest := h.sent
  · exact .inl (hin.trans hsub)
  · exact .inr hrest

theorem Joined.growReplica (h : Joined P doc known replica state toCore toReplica)
    (hsub : replica ⊆ replica') : Joined P doc known replica' state toCore toReplica := by
  refine ⟨fun m hm => (h.told m hm).trans hsub, fun core hc x hx => (h.toldCore core hc x hx).trans
    hsub, h.heard, h.heardReplica, h.sent, fun core hc => ?_, h.reached, h.answered⟩
  obtain hin | hrest := h.sentCore core hc
  · exact .inl (hin.trans hsub)
  · exact .inr hrest

/-- Core sends what the replica lacks, and has nothing more to say. -/
theorem Joined.coreSends (hP : P.Sound)
    (h : Joined P doc (some core) replica state toCore toReplica) :
    Joined P doc (some (P.generate doc core).2) replica state toCore
      (toReplica ++ (P.generate doc core).1.toList) := by
  cases hgen : (P.generate doc core).1 with
  | none =>
    rw [(hP.silent _ _ hgen).1, Option.toList_none, List.append_nil]
    exact h
  | some message =>
    obtain ⟨htold, hlast, htheirs, hflight⟩ := hP.sends _ _ _ hgen
    refine ⟨h.told, ?_, ?_, h.heardReplica, ?_, ?_, nofun, ?_⟩
    · rintro _ ⟨⟩ x hx
      rw [htheirs] at hx
      exact h.toldCore core rfl x hx
    · intro m hm
      obtain hm | hm := List.mem_append.mp hm
      · exact h.heard m hm
      · rw [List.mem_singleton.mp hm, htold]
    · obtain hin | hlast' | ⟨hempty, core', hcore', heq⟩ := h.sent
      · exact .inl hin
      · exact .inr (.inl hlast')
      · cases hcore'
        exact .inr (.inr ⟨hempty, _, rfl, htheirs.trans heq⟩)
    · rintro _ ⟨⟩
      refine .inr (.inl ⟨message, ?_, htold.trans hlast.symm⟩)
      rw [Option.toList_some, List.getLast?_concat]
    · intro _ hempty
      rw [Option.toList_some] at hempty
      exact absurd hempty (List.append_ne_nil_of_right_ne_nil _ (List.cons_ne_nil _ _))

/-- The replica sends what Core lacks. -/
theorem Joined.replicaSends (hP : P.Sound)
    (h : Joined P doc known replica state toCore toReplica) :
    Joined P doc known replica (P.generate replica state).2
      (toCore ++ (P.generate replica state).1.toList) toReplica := by
  cases hgen : (P.generate replica state).1 with
  | none =>
    rw [(hP.silent _ _ hgen).1, Option.toList_none, List.append_nil]
    exact h
  | some message =>
    obtain ⟨htold, hlast, htheirs, hflight⟩ := hP.sends _ _ _ hgen
    have hne : toCore ++ [message] ≠ [] :=
      List.append_ne_nil_of_right_ne_nil _ (List.cons_ne_nil _ _)
    rw [Option.toList_some]
    refine ⟨?_, h.toldCore, h.heard, ?_, ?_, ?_, fun hempty => absurd hempty hne,
      fun hempty => absurd hempty hne⟩
    · intro m hm
      obtain hm | hm := List.mem_append.mp hm
      · exact h.told m hm
      · rw [List.mem_singleton.mp hm, htold]
    · rw [htheirs]
      exact h.heardReplica
    · exact .inr (.inl ⟨message, List.getLast?_concat .., htold.trans hlast.symm⟩)
    · intro core' hcore'
      rw [htheirs]
      exact h.sentCore core' hcore'

/-- Core takes a message of the replica. -/
theorem Joined.coreTakes (hP : P.Sound)
    (h : Joined P doc known replica state (m :: toCore) toReplica) :
    Joined P (P.receive doc (known.getD P.fresh) m).1
      (some (P.receive doc (known.getD P.fresh) m).2) replica state toCore toReplica := by
  obtain ⟨hgrow, htheirs, hflight, hlast⟩ := hP.takes doc (known.getD P.fresh) m
  have h' := h.growCore hgrow
  have hm : P.told m ⊆ replica := h.told m List.mem_cons_self
  refine ⟨fun m' hm' => h.told m' (List.mem_cons_of_mem _ hm'), ?_, h'.heard, h'.heardReplica, ?_,
    ?_, nofun, ?_⟩
  · rintro _ ⟨⟩ x hx
    rw [htheirs] at hx
    cases hx
    exact hm
  · obtain hin | ⟨m', hm', htold⟩ | ⟨hempty, -⟩ := h'.sent
    · exact .inl hin
    · cases toCore with
      | nil =>
        cases hm'
        exact .inr (.inr ⟨rfl, _, rfl, htheirs.trans (congrArg some htold)⟩)
      | cons m'' rest =>
        rw [List.getLast?_cons_cons] at hm'
        exact .inr (.inl ⟨m', hm', htold⟩)
    · cases hempty
  · rintro _ ⟨⟩
    obtain hsame | hnone | hm' := hlast
    · rw [hsame]
      cases known with
      | none =>
        rw [Option.getD_none, hP.fresh.1]
        exact .inl (Finset.empty_subset _)
      | some core => exact h.sentCore core rfl
    · rw [hnone]
      exact .inl (Finset.empty_subset _)
    · rw [hm']
      exact .inl hm
  · rintro - - _ ⟨⟩ ⟨hin, -⟩
    rw [hflight] at hin
    exact Bool.false_ne_true hin

/-- The replica takes a message of Core's. -/
theorem Joined.replicaTakes (hP : P.Sound)
    (h : Joined P doc known replica state toCore (m :: toReplica)) :
    Joined P doc known (P.receive replica state m).1 (P.receive replica state m).2 toCore
      toReplica := by
  obtain ⟨hgrow, htheirs, hflight, hlast⟩ := hP.takes replica state m
  have h' := h.growReplica hgrow
  have hm : P.told m ⊆ doc := h.heard m List.mem_cons_self
  refine ⟨h'.told, h'.toldCore, fun m' hm' => h.heard m' (List.mem_cons_of_mem _ hm'), ?_, ?_, ?_,
    h.reached, ?_⟩
  · intro x hx
    rw [htheirs] at hx
    cases hx
    exact hm
  · obtain hsame | hnone | hm' := hlast
    · rw [hsame]
      exact h.sent
    · rw [hnone]
      exact .inl (Finset.empty_subset _)
    · rw [hm']
      exact .inl hm
  · intro core hcore
    obtain hin | ⟨m', hm', htold⟩ | ⟨hempty, -⟩ := h'.sentCore core hcore
    · exact .inl hin
    · cases toReplica with
      | nil =>
        cases hm'
        exact .inr (.inr ⟨rfl, htheirs.trans (congrArg some htold)⟩)
      | cons m'' rest =>
        rw [List.getLast?_cons_cons] at hm'
        exact .inr (.inl ⟨m', hm', htold⟩)
    · cases hempty
  · rintro - - core - ⟨-, hin⟩
    rw [hflight] at hin
    exact Bool.false_ne_true hin

/-- A replica that is opened sends a first message. -/
theorem joined_opened (hP : P.Sound) (snapshot : Finset Change) :
    Joined P doc none snapshot (P.generate snapshot P.fresh).2
      ([] ++ (P.generate snapshot P.fresh).1.toList) [] := by
  obtain ⟨-, hnone, hidle⟩ := hP.fresh
  cases hgen : (P.generate snapshot P.fresh).1 with
  | none =>
    obtain ⟨-, -, hin | hin⟩ := hP.silent _ _ hgen
    · rw [hnone] at hin
      cases hin
    · rw [hidle] at hin
      cases hin
  | some message =>
    obtain ⟨htold, hlast, htheirs, -⟩ := hP.sends _ _ _ hgen
    refine ⟨fun m hm => ?_, nofun, nofun, ?_, ?_, nofun, nofun, nofun⟩
    · rw [List.mem_singleton.mp hm, htold]
    · rw [htheirs, hnone]
      exact nofun
    · exact .inr (.inl ⟨message, rfl, htold.trans hlast.symm⟩)

/-- What was sent is not sent again. -/
theorem silent_again (hP : P.Sound) (doc : Finset Change) (state : P.Sync) :
    (P.generate doc (P.generate doc state).2).1 = none := by
  cases hgen : (P.generate doc state).1 with
  | none => rw [(hP.silent _ _ hgen).1, hgen]
  | some message =>
    obtain ⟨-, hlast, -, hflight⟩ := hP.sends _ _ _ hgen
    exact hP.waits _ _ hlast hflight

/-- All there is to send is one message at most. -/
theorem flush_eq (hP : P.Sound) (doc : Finset Change) (n : Nat) (state : P.Sync)
    (sent : List P.Message) : State.flush doc (n + 2) state sent =
      ((P.generate doc state).2, sent ++ (P.generate doc state).1.toList) := by
  have hstop : ∀ (n : Nat) (state : P.Sync) (sent : List P.Message),
      (P.generate doc state).1 = none → State.flush doc (n + 1) state sent = (state, sent) := by
    intro n state sent hgen
    have hstate := (hP.silent _ _ hgen).1
    rw [State.flush]
    split
    · next state' heq =>
      rw [heq] at hstate
      rw [show state' = state from hstate]
    · next message state' heq =>
      rw [heq] at hgen
      cases hgen
  cases hgen : (P.generate doc state).1 with
  | none =>
    rw [hstop _ _ _ hgen, (hP.silent _ _ hgen).1, Option.toList_none, List.append_nil]
  | some message =>
    rw [State.flush]
    split
    · next state' heq =>
      rw [heq] at hgen
      cases hgen
    · next message' state' heq =>
      have hagain := silent_again hP doc state
      rw [heq] at hgen hagain ⊢
      cases hgen
      rw [hstop _ _ _ hagain]
      rfl

end Joined

/-! ### Lists of known replicas -/

section Lookup

variable {α : Type} {l : List (String × α)} {p q : String} {a : α}

theorem lookup_map_at : (l.map fun k => if k.1 = q then (q, a) else k).lookup p =
    if p = q then (l.lookup p).map fun _ => a else l.lookup p := by
  induction l with
  | nil => simp
  | cons k l ih =>
    obtain ⟨k, b⟩ := k
    rw [List.map_cons]
    by_cases hk : k = q
    · subst hk
      rw [if_pos rfl, List.lookup_cons, List.lookup_cons, ih]
      by_cases hp : p = k
      · subst hp
        simp
      · rw [beq_false_of_ne hp, if_neg hp]
    · rw [if_neg hk, List.lookup_cons, List.lookup_cons, ih]
      by_cases hp : p = k
      · subst hp
        simp [hk]
      · rw [beq_false_of_ne hp]

theorem lookup_filter_ne : (l.filter fun k => k.1 ≠ q).lookup p =
    if p = q then none else l.lookup p := by
  induction l with
  | nil => simp
  | cons k l ih =>
    obtain ⟨k, b⟩ := k
    by_cases hk : k = q
    · subst hk
      rw [List.filter_cons_of_neg (by simp), ih, List.lookup_cons]
      by_cases hp : p = k
      · subst hp
        simp
      · rw [beq_false_of_ne hp]
    · rw [List.filter_cons_of_pos (by simpa using hk), List.lookup_cons, List.lookup_cons, ih]
      by_cases hp : p = k
      · subst hp
        simp [hk]
      · rw [beq_false_of_ne hp]

theorem lookup_append_one : (l ++ [(q, a)]).lookup p =
    (l.lookup p).or (if p = q then some a else none) := by
  induction l with
  | nil =>
    rw [List.nil_append, List.lookup_cons]
    by_cases hp : p = q
    · subst hp
      simp
    · simp [hp, beq_false_of_ne hp]
  | cons k l ih =>
    obtain ⟨k, b⟩ := k
    rw [List.cons_append, List.lookup_cons, List.lookup_cons, ih]
    by_cases hp : p = k
    · subst hp
      simp
    · rw [beq_false_of_ne hp]

theorem mem_of_lookup (h : l.lookup p = some a) : p ∈ l.map Prod.fst := by
  induction l with
  | nil => cases h
  | cons k l ih =>
    obtain ⟨k, b⟩ := k
    rw [List.map_cons, List.mem_cons]
    rw [List.lookup_cons] at h
    by_cases hp : p = k
    · exact .inl hp
    · rw [beq_false_of_ne hp] at h
      exact .inr (ih h)

end Lookup

/-! ### Runs -/

section Runs

variable {P : Protocol Change} {s t : State P} {p q : String} {a : Act Change}

/-- An open replica stands to Core as it must, and has nothing to say. -/
def Standing (s : State P) (p : String) : Prop :=
  ∀ replica state, s.replicas p = some (replica, state) →
    (P.generate replica state).1 = none ∧
      Joined P s.doc (s.known.lookup p) replica state (s.toCore p) (s.toReplica p)

/-- Core has nothing to say to a replica. -/
def Told (s : State P) (p : String) : Prop :=
  ∀ core, s.known.lookup p = some core → (P.generate s.doc core).1 = none

/-- What sending to one replica does. -/
structure Sent (s t : State P) (q : String) : Prop where
  doc : t.doc = s.doc
  replicas : t.replicas = s.replicas
  toCore : t.toCore = s.toCore
  known : ∀ p, t.known.lookup p = if p = q then
    (s.known.lookup p).map fun core => (P.generate s.doc core).2 else s.known.lookup p
  toReplica : ∀ p, t.toReplica p = if p = q then
    s.toReplica p ++ ((s.known.lookup p).bind fun core => (P.generate s.doc core).1).toList
    else s.toReplica p

omit [DecidableEq Change] in
theorem syncReplica_sent (s : State P) (q : String) : Sent s (s.syncReplica q) q := by
  rw [State.syncReplica]
  split
  · next hnone =>
    refine ⟨rfl, rfl, rfl, fun p => ?_, fun p => ?_⟩
    · by_cases hp : p = q
      · rw [if_pos hp, hp, hnone]
        rfl
      · rw [if_neg hp]
    · by_cases hp : p = q
      · rw [if_pos hp, hp, hnone, Option.bind_none, Option.toList_none, List.append_nil]
      · rw [if_neg hp]
  · next state hstate =>
    refine ⟨rfl, rfl, rfl, fun p => ?_, fun p => ?_⟩
    · refine lookup_map_at.trans ?_
      by_cases hp : p = q
      · rw [if_pos hp, if_pos hp, hp, hstate]
        rfl
      · rw [if_neg hp, if_neg hp]
    · change Function.update _ _ _ p = _
      by_cases hp : p = q
      · subst hp
        rw [Function.update_self, if_pos rfl, hstate, Option.bind_some]
      · rw [Function.update_of_ne hp, if_neg hp]

omit [DecidableEq Change] in
/-- Sending to one replica keeps how each stands. -/
theorem Sent.standing (hP : P.Sound) (h : Sent s t q) (hp : Standing s p) : Standing t p := by
  intro replica state hopen
  rw [h.replicas] at hopen
  obtain ⟨hsilent, hjoined⟩ := hp replica state hopen
  refine ⟨hsilent, ?_⟩
  rw [h.doc, h.known, h.toCore, h.toReplica]
  by_cases hpq : p = q
  · rw [if_pos hpq, if_pos hpq]
    cases hknown : s.known.lookup p with
    | none =>
      rw [hknown] at hjoined
      simpa using hjoined
    | some core =>
      rw [hknown] at hjoined
      exact hjoined.coreSends hP
  · rw [if_neg hpq, if_neg hpq]
    exact hjoined

omit [DecidableEq Change] in
theorem Sent.told_self (hP : P.Sound) (h : Sent s t q) : Told t q := by
  intro core hcore
  rw [h.known, if_pos rfl] at hcore
  obtain ⟨core', -, rfl⟩ := Option.map_eq_some_iff.mp hcore
  rw [h.doc]
  exact silent_again hP _ _

omit [DecidableEq Change] in
theorem Sent.told (hP : P.Sound) (h : Sent s t q) (hp : Told s p) : Told t p := by
  by_cases hpq : p = q
  · rw [hpq]
    exact h.told_self hP
  · intro core hcore
    rw [h.known, if_neg hpq] at hcore
    rw [h.doc]
    exact hp core hcore

omit [DecidableEq Change] in
/-- Sending to some replicas leaves nothing to say to any of them. -/
theorem foldl_syncReplica (hP : P.Sound) (peers : List String)
    (hstanding : ∀ p, Standing s p) (htold : ∀ p, p ∉ peers → Told s p) :
    (∀ p, Standing (peers.foldl State.syncReplica s) p) ∧
      (∀ p, Told (peers.foldl State.syncReplica s) p) := by
  induction peers generalizing s with
  | nil => exact ⟨hstanding, fun p => htold p List.not_mem_nil⟩
  | cons q peers ih =>
    have hsent := syncReplica_sent s q
    refine ih (fun p => hsent.standing hP (hstanding p)) fun p hp => ?_
    by_cases hpq : p = q
    · rw [hpq]
      exact hsent.told_self hP
    · refine hsent.told hP (htold p fun hmem => ?_)
      obtain heq | hmem := List.mem_cons.mp hmem
      · exact hpq heq
      · exact hp hmem

omit [DecidableEq Change] in
theorem docChanged_standing (hP : P.Sound) (hstanding : ∀ p, Standing s p) :
    (∀ p, Standing s.docChanged p) ∧ (∀ p, Told s.docChanged p) := by
  refine foldl_syncReplica hP _ hstanding fun p hp core hcore => ?_
  exact absurd (mem_of_lookup hcore) hp

/-- Every open replica stands to Core as it must, and neither has anything to say. -/
structure Settled (s : State P) : Prop where
  standing : ∀ p, Standing s p
  told : ∀ p, Told s p

omit [DecidableEq Change] in
/-- A replica that flushes. -/
theorem flushed_settled (hP : P.Sound) {doc : Finset Change} {state : P.Sync}
    (hothers : ∀ p ≠ q, Standing s p) (htold : ∀ p, Told s p)
    (hjoined : Joined P s.doc (s.known.lookup q) doc (P.generate doc state).2
      (s.toCore q ++ (P.generate doc state).1.toList) (s.toReplica q)) :
    Settled (s.flushed q doc state) := by
  refine ⟨fun p replica state' hopen => ?_, htold⟩
  rw [State.flushed, flush_eq hP] at hopen ⊢
  dsimp only at hopen ⊢
  by_cases hp : p = q
  · subst hp
    rw [Function.update_self] at hopen
    cases hopen
    rw [Function.update_self]
    exact ⟨silent_again hP _ _, hjoined⟩
  · rw [Function.update_of_ne hp] at hopen
    rw [Function.update_of_ne hp]
    exact hothers p hp replica state' hopen

omit [DecidableEq Change] in
/-- What is on its way from a replica that is closed is of no account. -/
theorem Settled.dropped (h : Settled s) (hclosed : s.replicas q = none) (rest : List P.Message) :
    Settled { s with toCore := Function.update s.toCore q rest } := by
  refine ⟨fun p replica state hopen => ?_, h.told⟩
  have hp : p ≠ q := by
    rintro rfl
    exact Option.some_ne_none _ (hopen.symm.trans hclosed)
  dsimp only
  rw [Function.update_of_ne hp]
  exact h.standing p replica state hopen

/-- A message of a replica, taken as it was sent. -/
theorem docSync_settled (hP : P.Sound) (h : Settled s) {m : P.Message} {rest : List P.Message}
    (hfirst : s.toCore q = m :: rest) (htaken : s.refuses q = false)
    (hroom : (s.known.filter fun k => k.1 ≠ q).length < maxReplicas) :
    Settled ({ s with toCore := Function.update s.toCore q rest }.docSync q m) := by
  obtain ⟨hgrow, -⟩ := hP.takes s.doc ((s.known.lookup q).getD P.fresh) m
  have hknown : ∀ p, (s.known.filter (fun k => k.1 ≠ q) ++
      [(q, (P.receive s.doc ((s.known.lookup q).getD P.fresh) m).2)]).lookup p = if p = q then
        some (P.receive s.doc ((s.known.lookup q).getD P.fresh) m).2 else s.known.lookup p := by
    intro p
    rw [lookup_append_one, lookup_filter_ne]
    by_cases hp : p = q
    · rw [if_pos hp, if_pos hp, Option.none_or, if_pos hp]
    · rw [if_neg hp, if_neg hp, if_neg hp, Option.or_none]
  have htaken' : ({ s with toCore := Function.update s.toCore q rest } : State P).refuses q = false :=
    htaken
  rw [State.docSync, if_neg (Bool.eq_false_iff.mp htaken')]
  dsimp only
  rw [State.putReplica]
  simp only [if_neg (not_le.mpr hroom)]
  generalize hr : P.receive s.doc ((s.known.lookup q).getD P.fresh) m = r at hgrow hknown
  generalize hmiddle : ({ s with
    doc := r.1
    known := s.known.filter (fun k => k.1 ≠ q) ++ [(q, r.2)]
    toCore := Function.update s.toCore q rest } : State P) = t
  have hstanding : ∀ p, Standing t p := by
    subst hmiddle
    intro p replica state hopen
    obtain ⟨hsilent, hjoined⟩ := h.standing p replica state hopen
    refine ⟨hsilent, ?_⟩
    dsimp only
    rw [hknown]
    by_cases hp : p = q
    · subst hp
      rw [if_pos rfl, Function.update_self, ← hr]
      rw [hfirst] at hjoined
      exact hjoined.coreTakes hP
    · rw [if_neg hp, Function.update_of_ne hp]
      exact hjoined.growCore hgrow
  split
  · obtain ⟨h₁, h₂⟩ := docChanged_standing hP hstanding
    exact ⟨h₁, h₂⟩
  · next hsame =>
    have hsent := syncReplica_sent t q
    refine ⟨fun p => hsent.standing hP (hstanding p), fun p => ?_⟩
    by_cases hp : p = q
    · rw [hp]
      exact hsent.told_self hP
    · refine hsent.told hP fun core hcore => ?_
      subst hmiddle
      change List.lookup p _ = _ at hcore
      rw [hknown, if_neg hp] at hcore
      change (P.generate r.1 core).1 = none
      rw [not_not.mp hsame]
      exact h.told p core hcore

/-- **One step** that meets its condition. -/
theorem Settled.step (hP : P.Sound) (h : Settled s) (hcame : s.Enabled a) (hmeets : Meets s a) :
    Settled (s.step a) := by
  cases a with
  | edit changes =>
    rw [State.step]
    split
    · exact h
    · have hstanding : ∀ p, Standing ({ s with doc := s.doc ∪ changes } : State P) p := by
        intro p replica state hopen
        obtain ⟨hsilent, hjoined⟩ := h.standing p replica state hopen
        exact ⟨hsilent, hjoined.growCore Finset.subset_union_left⟩
      obtain ⟨h₁, h₂⟩ := docChanged_standing hP hstanding
      exact ⟨h₁, h₂⟩
  | granted peer account => exact ⟨h.standing, h.told⟩
  | opened peer snapshot =>
    obtain ⟨-, hknown, hto, hfrom, -⟩ := hcame
    refine flushed_settled hP (fun p _ => h.standing p) h.told ?_
    rw [hknown, hto, hfrom]
    exact joined_opened hP snapshot
  | draw peer changes =>
    simp only [State.step]
    split
    · exact h
    · next doc state hopen =>
      obtain ⟨-, hjoined⟩ := h.standing peer doc state hopen
      exact flushed_settled hP (fun p _ => h.standing p) h.told
        ((hjoined.growReplica Finset.subset_union_left).replicaSends hP)
  | closed peer =>
    refine ⟨fun p replica state hopen => ?_, h.told⟩
    dsimp only [State.step] at hopen
    by_cases hp : p = peer
    · rw [hp, Function.update_self] at hopen
      cases hopen
    · rw [Function.update_of_ne hp] at hopen
      exact h.standing p replica state hopen
  | ended peer =>
    refine ⟨fun p replica state hopen => ?_, fun p core hcore => ?_⟩
    · dsimp only [State.step] at hopen ⊢
      have hp : p ≠ peer := by
        rintro rfl
        rw [show s.replicas p = none from hcame] at hopen
        cases hopen
      rw [lookup_filter_ne, if_neg hp]
      exact h.standing p replica state hopen
    · dsimp only [State.step] at hcore
      rw [lookup_filter_ne] at hcore
      split at hcore
      · cases hcore
      · exact h.told p core hcore
  | sync peer i =>
    rw [Meets] at hmeets
    simp only [State.step]
    split at hmeets
    · next hrefused =>
      cases hfirst : (s.toCore peer)[i]? with
      | none => exact h
      | some m =>
        have hdropped := h.dropped hmeets ((s.toCore peer).eraseIdx i)
        have hkept : ({ s with
            toCore := Function.update s.toCore peer ((s.toCore peer).eraseIdx i) } : State P).docSync
              peer m = { s with
            toCore := Function.update s.toCore peer ((s.toCore peer).eraseIdx i) } :=
          if_pos hrefused
        dsimp only
        rw [hkept]
        exact hdropped
    · next htaken =>
      obtain ⟨rfl, hroom⟩ := hmeets
      cases hfirst : s.toCore peer with
      | nil => exact h
      | cons m rest => exact docSync_settled hP h hfirst (Bool.eq_false_of_not_eq_true htaken) hroom
  | hear peer =>
    simp only [State.step]
    split
    · exact h
    · next message rest hfirst =>
      have hothers : ∀ p ≠ peer, Standing ({ s with
          toReplica := Function.update s.toReplica peer rest } : State P) p := by
        intro p hp replica state hopen
        dsimp only
        rw [Function.update_of_ne hp]
        exact h.standing p replica state hopen
      split
      · next hnone =>
        refine ⟨fun p => ?_, h.told⟩
        by_cases hp : p = peer
        · intro replica state hopen
          rw [hp] at hopen
          exact absurd (hopen.symm.trans hnone) nofun
        · exact hothers p hp
      · next doc state hopen =>
        obtain ⟨-, hjoined⟩ := h.standing peer doc state hopen
        rw [hfirst] at hjoined
        refine flushed_settled hP hothers h.told ?_
        dsimp only
        rw [Function.update_self]
        exact (hjoined.replicaTakes hP).replicaSends hP
  | lost peer i =>
    refine ⟨fun p replica state hopen => ?_, h.told⟩
    dsimp only [State.step] at hopen ⊢
    have hp : p ≠ peer := by
      rintro rfl
      rw [show s.replicas p = none from hmeets] at hopen
      cases hopen
    rw [Function.update_of_ne hp]
    exact h.standing p replica state hopen

/-- The replica that an act is of. -/
def Act.of : Act Change → Option String
  | .edit _ | .granted _ _ => none
  | .opened peer _ | .draw peer _ | .closed peer | .ended peer | .sync peer _ | .hear peer
  | .lost peer _ => some peer

end Runs

/-! ### A protocol that sends what it has -/

/-- What is kept of the other side: the document sent last, the other's as told last, and whether
the last message is not answered. -/
structure Plain where
  lastSent : Finset Nat
  theirs : Option (Finset Nat)
  inFlight : Bool

/-- A message is the sender's whole document. -/
@[grind =]
def plain : Protocol Nat where
  Sync := Plain
  Message := Finset Nat
  fresh := ⟨∅, none, false⟩
  lastSent := Plain.lastSent
  theirs := Plain.theirs
  inFlight := Plain.inFlight
  told := id
  generate doc state :=
    if state.lastSent = doc ∧ (state.theirs = some doc ∨ state.inFlight = true) then (none, state)
    else (some doc, { state with lastSent := doc, inFlight := true })
  receive doc state message :=
    (doc ∪ message, { state with theirs := some message, inFlight := false })

theorem plain_sound : plain.Sound where
  fresh := ⟨rfl, rfl, rfl⟩
  silent doc state hnone := by
    by_cases hcond : state.lastSent = doc ∧ (state.theirs = some doc ∨ state.inFlight = true)
    · exact ⟨congrArg Prod.snd (if_pos hcond), hcond⟩
    · rw [show plain.generate doc state = _ from if_neg hcond] at hnone
      cases hnone
  waits doc state hlast hflight := congrArg Prod.fst (if_pos ⟨hlast, .inr hflight⟩)
  sends doc state message hsome := by
    by_cases hcond : state.lastSent = doc ∧ (state.theirs = some doc ∨ state.inFlight = true)
    · rw [show plain.generate doc state = _ from if_pos hcond] at hsome
      cases hsome
    · rw [show plain.generate doc state = _ from if_neg hcond] at hsome ⊢
      cases hsome
      exact ⟨rfl, rfl, rfl, rfl⟩
  takes doc state message := ⟨Finset.subset_union_left, rfl, rfl, .inl rfl⟩

/-- An account that may edit. -/
def editor : Account :=
  ⟨false, true⟩

end Syncing

end LocalSpace
