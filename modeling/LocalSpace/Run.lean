import LocalSpace.Handle
import LocalSpace.Library.Runs

/-!
# Runs of Core

Core as a labelled system: the messages its transport hands it one at a time, in any order.
A request comes from a caller who is signed in, with the roles their account has; a model
step comes back with whatever the model made of it; a posted step comes back when it is its
turn; and Core may be started again on the same database, with other packages and another
configuration. `Reach ok c`: `c` is reached from a start on an empty database by messages
that each met `ok` in the state it came in.
-/

namespace LocalSpace

open Library

variable {H : Host}

inductive Message where
  | request (caller : Caller) (req : Request)
  | system (req : SystemRequest)
  /-- The `i`-th model step being read ended. -/
  | read (i : Nat) (step : StepEnd)
  /-- The `i`-th posted step comes back. -/
  | posted (i : Nat)
  | restart (cfg : Config) (packages : List Staged)

namespace Core

/-- What a message does. -/
@[grind =]
def step (c : Core H) : Message → Core H
  | .request caller req => ((handleAs caller req).run c).2
  | .system req => ((handleSystem req).run c).2
  | .read i step =>
    match c.reading[i]? with
    | none => c
    | some r =>
      ((internal (.replied r.turn step)).run { c with reading := c.reading.eraseIdx i }).2
  | .posted i =>
    match c.posted[i]? with
    | none => c
    | some message => ((internal message).run { c with posted := c.posted.eraseIdx i }).2
  | .restart cfg packages => .new cfg c.store c.dag c.reads packages

/-- A caller as the transport makes one: on one's own computer its user; on a server someone
whose account is not disabled, with the roles it has. No sign-in carries groups. -/
def SignedIn (c : Core H) (caller : Caller) : Prop :=
  if c.cfg.organisation then
    caller.groups = [] ∧
      (c.store.users.lookup caller.user).any fun u => !u.disabled && u.roles = caller.roles
  else caller = .localUser c.cfg.user

/-- When a message may come. -/
def Comes (c : Core H) : Message → Prop
  | .request caller _ => c.SignedIn caller
  | .system _ => True
  | .read i _ => i < c.reading.length
  | .posted i => i < c.posted.length
  | .restart .. => True

/-- When a message may come and its handling returns: what it left to do inside it was done
with the host's patience. -/
def Enabled (c : Core H) (m : Message) : Prop :=
  c.Comes m ∧ (c.step m).inline.isEmpty

instance (c : Core H) (caller : Caller) : Decidable (c.SignedIn caller) := by
  unfold SignedIn
  infer_instance

instance (c : Core H) : (m : Message) → Decidable (c.Comes m)
  | .request caller _ => inferInstanceAs (Decidable (c.SignedIn caller))
  | .system _ => .isTrue trivial
  | .read i _ => inferInstanceAs (Decidable (i < c.reading.length))
  | .posted i => inferInstanceAs (Decidable (i < c.posted.length))
  | .restart .. => .isTrue trivial

instance (c : Core H) (m : Message) : Decidable (c.Enabled m) :=
  inferInstanceAs (Decidable (_ ∧ _))

/-- Core with its messages. -/
@[grind =]
def system (H : Host) : System (Core H) Message :=
  ⟨step, Enabled⟩

instance (c : Core H) (m : Message) : Decidable ((system H).enabled c m) :=
  inferInstanceAs (Decidable (c.Enabled m))

/-- A start on an empty database. -/
@[grind =]
def start (cfg : Config) (packages : List Staged) : Core H :=
  .new cfg .empty .empty 0 packages

/-- Reached from a start on an empty database, by messages that each met `ok`. -/
def Reach (ok : Core H → Message → Prop) (c : Core H) : Prop :=
  ∃ cfg packages, (system H).Runs ok (start cfg packages) c

variable {ok : Core H → Message → Prop}

/-- **Induction over the reachable states**: what every start has, and every message that
meets the condition keeps, every reachable state has. -/
theorem Reach.induction {I : Core H → Prop} {c : Core H} (h : Reach ok c)
    (hstart : ∀ cfg packages, I (start cfg packages))
    (hstep : ∀ c m, I c → c.Enabled m → ok c m → I (c.step m)) : I c := by
  obtain ⟨cfg, packages, hrun⟩ := h
  exact hrun.invariant (hstart cfg packages) hstep

theorem Reach.step {c : Core H} {m : Message} (h : Reach ok c) (he : c.Enabled m)
    (hok : ok c m) : Reach ok (c.step m) := by
  obtain ⟨cfg, packages, hrun⟩ := h
  exact ⟨cfg, packages, hrun.tail he hok⟩

end Core

end LocalSpace
