import LocalSpace.Core
import LocalSpace.Library.Runs

/-!
# Packages and what they may do

`manifest.rs`: the capabilities a package asks for, and how far one set widens another.
`lib.rs`: a package installed, approved, uninstalled and loaded again at the next start. The
package is copied into the data directory before anything else is decided of it, the copy is what
a prompt's approval reads again, and a start loads whatever copies there are. So capabilities
widen only as approved in the runs in which a start finds the copies that ran, and an approval the
copy its prompt was about (`widened_as_approved`); a prompt left unanswered widens them at the
next start (`unanswered_widens`).
-/

namespace LocalSpace.Installs

open Library

/-! ### Capabilities -/

inductive FsCap where
  | none
  | workspace
  | scoped (path : String)
  deriving DecidableEq

def FsCap.describe : FsCap → String
  | .none => "none"
  | .workspace => "workspace"
  | .scoped path => s!"scoped:{path}"

inductive GpuCap where
  | off (on : Bool)
  | request (vramGb : Nat) (exclusive : Bool)
  deriving DecidableEq

namespace GpuCap

def wanted : GpuCap → Bool
  | off on => on
  | request _ _ => true

def vramGb : GpuCap → Nat
  | off _ => 0
  | request vramGb _ => vramGb

def describe : GpuCap → String
  | off false => "none"
  | off true => "yes"
  | request vramGb true => s!"{vramGb} GB, exclusive"
  | request vramGb false => s!"{vramGb} GB, shared"

end GpuCap

inductive NetCap where
  | simple (word : String)
  | allowlist (hosts : List String) (reason : String)
  deriving DecidableEq

def NetCap.hosts : NetCap → List String
  | .simple _ => []
  | .allowlist hosts _ => hosts

inductive ClipboardCap where
  | none | onUserAction | always
  deriving DecidableEq

def ClipboardCap.describe : ClipboardCap → String
  | .none => "none"
  | .onUserAction => "on-user-action"
  | .always => "always"

inductive DocsCap where
  | none | acl
  deriving DecidableEq

inductive ModelCap where
  | complete | structured | embed
  deriving DecidableEq

def ModelCap.describe : ModelCap → String
  | .complete => "complete"
  | .structured => "structured"
  | .embed => "embed"

/-- What a package may do; nothing, unless it asks. -/
structure Capabilities where
  fs : FsCap := .none
  net : NetCap := .simple "none"
  gpu : GpuCap := .off false
  spawn : Bool := false
  clipboard : ClipboardCap := .none
  docs : DocsCap := .none
  model : List ModelCap := []
  deriving DecidableEq

/-- A line of a diff, where there is one. -/
def line (p : Prop) [Decidable p] (text : String) : List String :=
  if p then [text] else []

/-- What a package would gain over what it had: the diff that is shown. -/
def Capabilities.wideningOver (c prev : Capabilities) : List String :=
  let added := c.net.hosts.filter fun host => !prev.net.hosts.contains host
  line (c.fs ≠ prev.fs ∧ c.fs ≠ .none)
      s!"filesystem: {prev.fs.describe} -> {c.fs.describe}" ++
    line (added ≠ []) ("network: adds " ++ ", ".intercalate added) ++
    line (c.gpu.wanted = true ∧ (prev.gpu.wanted = false ∨ prev.gpu.vramGb < c.gpu.vramGb))
      s!"gpu: {prev.gpu.describe} -> {c.gpu.describe}" ++
    line (c.spawn = true ∧ prev.spawn = false) "spawn subprocesses: no -> yes" ++
    line (c.clipboard ≠ prev.clipboard ∧ c.clipboard ≠ .none)
      s!"clipboard: {prev.clipboard.describe} -> {c.clipboard.describe}" ++
    line (c.docs ≠ prev.docs ∧ c.docs ≠ .none) "documents: gains ACL-filtered retrieval" ++
    (c.model.filter fun m => !prev.model.contains m).map fun m =>
      s!"inference: adds model.{m.describe}"

/-- What the organisation grants at all. -/
structure Policy where
  netGrantable : Bool
  maxFs : String

@[grind =]
def Policy.apply (policy : Policy) (caps : Capabilities) : Capabilities :=
  { caps with
    net := if !policy.netGrantable ∧ caps.net ≠ .simple "none" then .simple "none" else caps.net
    fs := if policy.maxFs = "none" ∧ caps.fs ≠ .none then .none else caps.fs }

/-! ### What is installed, and what runs -/

/-- A package as it lies in a directory: its manifest's part, and the rest of what it holds. -/
structure Package where
  id : HarnessId
  capabilities : Capabilities
  contents : String
  deriving DecidableEq

/-- What a package gains over another under a policy. -/
def Policy.widening (policy : Policy) (package prev : Package) : List String :=
  (policy.apply package.capabilities).wideningOver (policy.apply prev.capabilities)

/-- Where a package lies: in a directory of its own, or among the installed copies. -/
inductive Place where
  | bundle (path : String)
  | installed (id : HarnessId)

/-- A prompt: the diff of a package over the one that ran. -/
structure Prompt where
  user : UserId
  token : String
  package : Package
  prev : Package
  diff : List String
  deriving DecidableEq

/-- How a package came to run. -/
inductive How where
  | restarted
  | installed
  /-- By the approval of a token; `shown` are the prompts shown to its user with that token. -/
  | approved (shown : List Prompt)
  deriving DecidableEq

def How.isApproved : How → Bool
  | approved _ => true
  | _ => false

/-- A package came to run, over the one of its name that ran last. -/
structure Coming where
  before : Option Package
  after : Package
  how : How
  deriving DecidableEq

/-- The packages of an environment. `prompts`, `came` and `ran` are not Core's own: they recall
the prompts shown, how packages came to run, and which of each name ran last since it was
uninstalled. -/
structure Shelf where
  bundles : Table String Package
  installed : Table HarnessId Package
  registry : Table HarnessId Package
  pending : Table (UserId × String) Place
  prompts : List Prompt
  came : List Coming
  ran : Table HarnessId Package

/-- One install, as it goes: where the package lies, whether this release sets it aside, the
dependencies installed first, and whether it is staged, its kinds are declared, and its logic
starts. -/
inductive Attempt where
  | mk (place : Place) (aside : Bool) (deps : List Attempt) (staged declared starts : Bool)

/-- A package loaded at a start that needs others: those it was resolved to install, if it was. -/
structure Dependent where
  id : HarnessId
  deps : Option (List Attempt)

/-- What an install came to. -/
inductive Outcome where
  | done
  | prompt (p : Prompt)
  | failed

namespace Shelf

/-- `Manifest::load`, and what lies beside the manifest. -/
def packageAt (s : Shelf) : Place → Option Package
  | .bundle path => s.bundles.lookup path
  | .installed id => s.installed.lookup id

/-- `persist_package`: the package copied over the installed one of its name. -/
def persist (s : Shelf) (place : Place) (package : Package) : Shelf :=
  match place with
  | .bundle _ => { s with installed := s.installed.insert package.id package }
  | .installed _ => s

/-- Where a package lies once it is persisted. -/
def persisted (place : Place) (package : Package) : Place :=
  match place with
  | .bundle _ => .installed package.id
  | .installed id => .installed id

def comesToRun (s : Shelf) (how : How) (package : Package) : Shelf :=
  { s with
    registry := s.registry.insert package.id package
    ran := s.ran.insert package.id package
    came := s.came ++ [⟨s.ran.lookup package.id, package, how⟩] }

/-- The prompt a package waits on, if it is an update that widens what it may do. -/
def promptFor (s : Shelf) (policy : Policy) (user : UserId) (now : Nat) (package : Package) :
    Option Prompt :=
  match s.registry.lookup package.id with
  | some existing =>
    if policy.widening package existing ≠ [] then
      some ⟨user, s!"t{now}", package, existing, policy.widening package existing⟩
    else none
  | none => none

mutual

/-- `install_inner`. -/
def installInner (policy : Policy) (user : UserId) (now : Nat) (how : How) :
    Attempt → Shelf → Outcome × Shelf
  | .mk place aside deps staged declared starts, s =>
    match s.packageAt place with
    | none => (.failed, s)
    | some package =>
      if aside then (.failed, s)
      else
        -- the copy is replaced first
        let s := s.persist place package
        if !staged then (.failed, s)
        else
          match installAll policy user now deps s with
          | (false, s) => (.failed, s)
          | (true, s) =>
            if !declared then (.failed, s)
            else
              match if how.isApproved then none else s.promptFor policy user now package with
              | some p =>
                (.prompt p,
                  { s with pending := s.pending.insert (user, p.token) (persisted place package) })
              | none => if starts then (.done, s.comesToRun how package) else (.failed, s)

/-- `install_dependencies`, of the packages it was resolved to install. -/
def installAll (policy : Policy) (user : UserId) (now : Nat) :
    List Attempt → Shelf → Bool × Shelf
  | [], s => (true, s)
  | a :: rest, s =>
    match installInner policy user now .installed a s with
    | (.done, s) => installAll policy user now rest s
    | (_, s) => (false, s)

end

/-- The installed copies loaded at a start, those that load. -/
def reload (s : Shelf) (loads : HarnessId → Bool) : Shelf :=
  s.installed.entries.foldl
    (fun s e => if loads e.1 then s.comesToRun .restarted e.2 else s)
    { s with registry := ∅, pending := ∅ }

/-- What a package loaded needs is installed; where that fails, the package does not run. -/
@[grind =]
def settleOne (policy : Policy) (user : UserId) (now : Nat) (s : Shelf) (d : Dependent) : Shelf :=
  match (d.deps.map fun deps => installAll policy user now deps s).getD (false, s) with
  | (true, s) => s
  | (false, s) => { s with registry := s.registry.erase d.id }

/-- `settle_packages`: what the packages loaded need, one after another; then a package that names a
kind no package declares does not run. -/
@[grind =]
def settle (policy : Policy) (user : UserId) (now : Nat) (dependents : List Dependent)
    (undeclared : List HarnessId) (s : Shelf) : Shelf :=
  let s := dependents.foldl (settleOne policy user now) s
  { s with registry := undeclared.foldl (fun r id => r.erase id) s.registry }

end Shelf

/-- The same install of what lies elsewhere. -/
def Attempt.at' (place : Place) : Attempt → Attempt
  | .mk _ aside deps staged declared starts => .mk place aside deps staged declared starts

def Attempt.deps : Attempt → List Attempt
  | .mk _ _ deps _ _ _ => deps

inductive Act where
  /-- A directory outside is written, or goes. -/
  | edit (path : String) (package : Option Package)
  | install (user : UserId) (now : Nat) (a : Attempt)
  | approve (user : UserId) (token : String) (now : Nat) (a : Attempt)
  | uninstall (id : HarnessId)
  /-- Core starts over, on the same data directory. -/
  | restart (user : UserId) (now : Nat) (loads : HarnessId → Bool) (dependents : List Dependent)
      (undeclared : List HarnessId)

namespace Shelf

/-- The prompts shown to a user with a token. -/
@[grind =]
def shown (s : Shelf) (user : UserId) (token : String) : List Prompt :=
  s.prompts.filter fun p => p.user = user ∧ p.token = token

@[grind =]
def step (policy : Policy) (s : Shelf) : Act → Shelf
  | .edit path none => { s with bundles := s.bundles.erase path }
  | .edit path (some package) => { s with bundles := s.bundles.insert path package }
  | .install user now a =>
    match installInner policy user now .installed a s with
    | (.prompt p, s) => { s with prompts := s.prompts ++ [p] }
    | (_, s) => s
  | .approve user token now a =>
    match s.pending.lookup (user, token) with
    | some place =>
      (installInner policy user now (.approved (s.shown user token)) (a.at' place)
        { s with pending := s.pending.erase (user, token) }).2
    | none => s
  | .uninstall id =>
    if (s.registry.lookup id).isSome then
      { s with
        registry := s.registry.erase id
        installed := s.installed.erase id
        ran := s.ran.erase id }
    else s
  | .restart user now loads dependents undeclared =>
    settle policy user now dependents undeclared (s.reload loads)

end Shelf

/-! ### What is asked of a run -/

namespace Shelf

/-- The name of the package that lies somewhere. -/
def nameAt (s : Shelf) : Place → List HarnessId
  | .bundle path => (s.bundles.lookup path).toList.map Package.id
  | .installed id => [id]

mutual

/-- The names of the packages an install is of, its dependencies' with it. -/
@[grind =]
def touches (s : Shelf) : Attempt → List HarnessId
  | .mk place _ deps _ _ _ => s.nameAt place ++ touchesAll s deps

@[grind =]
def touchesAll (s : Shelf) : List Attempt → List HarnessId
  | [] => []
  | a :: rest => touches s a ++ touchesAll s rest

end

/-- The package of a name that ran last runs. -/
def Current (s : Shelf) (id : HarnessId) : Prop :=
  ∀ prev, s.ran.lookup id = some prev → s.registry.lookup id = some prev

instance (s : Shelf) (id : HarnessId) : Decidable (s.Current id) :=
  inferInstanceAs (Decidable (∀ prev ∈ s.ran.lookup id, s.registry.lookup id = some prev))

/-- A package's dependencies are resolved to others than itself. -/
def enabled (s : Shelf) : Act → Prop
  | .approve user token _ a => ∀ place ∈ s.pending.lookup (user, token),
    ∀ package ∈ s.packageAt place, package.id ∉ s.touchesAll a.deps
  | _ => True

/-- What a package loaded needs is installed over what runs as it last ran. -/
def CurrentFor (s : Shelf) (d : Dependent) : Prop :=
  ∀ deps ∈ d.deps, ∀ id ∈ s.touchesAll deps, s.Current id

/-- What is asked of a step: an install finds the packages it is of running as they last ran; an
approval is of a prompt shown, finds the package that prompt was about, and over it the one that
ran then; and a start finds the copies that ran, and where it comes to what a package needs, the
packages it installs for it running as they last ran. -/
def Meets (policy : Policy) (s : Shelf) : Act → Prop
  | .install _ _ a => ∀ id ∈ s.touches a, s.Current id
  | .approve user token _ a => ∀ place ∈ s.pending.lookup (user, token),
    ∀ package ∈ s.packageAt place,
      s.shown user token ≠ [] ∧
      (∀ p ∈ s.shown user token, p.package = package ∧
        s.registry.lookup package.id = some p.prev) ∧
      ∀ id ∈ s.touchesAll a.deps, s.Current id
  | .restart user now loads dependents _ =>
    (∀ id copy prev, s.installed.lookup id = some copy → s.ran.lookup id = some prev →
      loads id = true → copy = prev) ∧
    ∀ before d after, dependents = before ++ d :: after →
      (before.foldl (settleOne policy user now) (s.reload loads)).CurrentFor d
  | _ => True

end Shelf

/-- A package came to run as it should: at a start as it ran before; by an install with nothing
gained; by an approval as the prompt showed it, what it gained in the diff. -/
def Coming.Sound (policy : Policy) (e : Coming) : Prop :=
  match e.how with
  | .restarted => ∀ prev, e.before = some prev → e.after = prev
  | .installed => ∀ prev, e.before = some prev → policy.widening e.after prev = []
  | .approved shown => shown ≠ [] ∧ ∀ p ∈ shown, p.package = e.after ∧
    ∀ prev, e.before = some prev → ∀ gain ∈ policy.widening e.after prev, gain ∈ p.diff

/-! ### The invariant -/

namespace Shelf

variable {policy : Policy} {s t : Shelf}

/-- Copies lie under their packages' names, what runs ran last, prompts show what is gained, and
packages came to run as they should. -/
structure Kept (policy : Policy) (s : Shelf) : Prop where
  named : ∀ id copy, s.installed.lookup id = some copy → copy.id = id
  ran : ∀ id package, s.registry.lookup id = some package → s.ran.lookup id = some package
  diffs : ∀ p ∈ s.prompts, p.diff = policy.widening p.package p.prev
  came : ∀ e ∈ s.came, e.Sound policy

/-- What an install leaves alone: what lies outside, the prompts, the packages it is not of, and
whether a package runs as it last ran. -/
structure Leaves (ids : List HarnessId) (s t : Shelf) : Prop where
  bundles : t.bundles = s.bundles
  prompts : t.prompts = s.prompts
  registry : ∀ id ∉ ids, t.registry.lookup id = s.registry.lookup id
  ran : ∀ id ∉ ids, t.ran.lookup id = s.ran.lookup id
  current : ∀ id, s.Current id → t.Current id

theorem Leaves.refl (ids : List HarnessId) (s : Shelf) : Leaves ids s s :=
  ⟨rfl, rfl, fun _ _ => rfl, fun _ _ => rfl, fun _ h => h⟩

theorem Leaves.trans {ids ids' : List HarnessId} {u : Shelf} (h : Leaves ids s t)
    (h' : Leaves ids' t u) : Leaves (ids ++ ids') s u where
  bundles := h'.bundles.trans h.bundles
  prompts := h'.prompts.trans h.prompts
  registry id hid := by
    rw [List.mem_append, not_or] at hid
    exact (h'.registry id hid.2).trans (h.registry id hid.1)
  ran id hid := by
    rw [List.mem_append, not_or] at hid
    exact (h'.ran id hid.2).trans (h.ran id hid.1)
  current id hid := h'.current id (h.current id hid)

theorem Leaves.mono {ids ids' : List HarnessId} (h : Leaves ids s t) (hsub : ids ⊆ ids') :
    Leaves ids' s t :=
  ⟨h.bundles, h.prompts, fun id hid => h.registry id fun hmem => hid (hsub hmem),
    fun id hid => h.ran id fun hmem => hid (hsub hmem), h.current⟩

theorem name_mem (h : s.Kept policy) {place : Place} {package : Package}
    (hplace : s.packageAt place = some package) : package.id ∈ s.nameAt place := by
  cases place with
  | bundle path =>
    have hlookup : s.bundles.lookup path = some package := hplace
    simp [nameAt, hlookup]
  | installed id =>
    rw [h.named id package hplace]
    exact List.mem_singleton_self id

theorem Kept.persist (h : s.Kept policy) (place : Place) (package : Package) :
    (s.persist place package).Kept policy := by
  cases place with
  | installed id => exact h
  | bundle path =>
    refine ⟨fun id copy hcopy => ?_, h.ran, h.diffs, h.came⟩
    by_cases hid : id = package.id
    · subst hid
      have hlookup : copy = package := by
        have hcopy : (s.installed.insert package.id package).lookup package.id = some copy := hcopy
        rw [AList.lookup_insert, Option.some.injEq] at hcopy
        exact hcopy.symm
      rw [hlookup]
    · have hcopy : (s.installed.insert package.id package).lookup id = some copy := hcopy
      rw [AList.lookup_insert_ne hid] at hcopy
      exact h.named id copy hcopy

theorem leaves_persist (ids : List HarnessId) (s : Shelf) (place : Place) (package : Package) :
    Leaves ids s (s.persist place package) := by
  cases place <;> exact ⟨rfl, rfl, fun _ _ => rfl, fun _ _ => rfl, fun _ h => h⟩

/-- A package comes to run as it should. -/
theorem Kept.comesToRun (h : s.Kept policy) {how : How} {package : Package}
    (hsound : Coming.Sound policy ⟨s.ran.lookup package.id, package, how⟩) :
    (s.comesToRun how package).Kept policy := by
  refine ⟨h.named, fun id p hp => ?_, h.diffs, fun e he => ?_⟩
  · have hp : (s.registry.insert package.id package).lookup id = some p := hp
    show (s.ran.insert package.id package).lookup id = some p
    by_cases hid : id = package.id
    · subst hid
      rw [AList.lookup_insert] at hp ⊢
      exact hp
    · rw [AList.lookup_insert_ne hid] at hp ⊢
      exact h.ran id p hp
  · rcases List.mem_append.1 he with he | he
    · exact h.came e he
    · rw [List.mem_singleton.1 he]
      exact hsound

theorem leaves_comesToRun (s : Shelf) (how : How) (package : Package) :
    Leaves [package.id] s (s.comesToRun how package) where
  bundles := rfl
  prompts := rfl
  registry id hid := AList.lookup_insert_ne (by simpa using hid)
  ran id hid := AList.lookup_insert_ne (by simpa using hid)
  current id hcurrent prev hprev := by
    have hprev : (s.ran.insert package.id package).lookup id = some prev := hprev
    show (s.registry.insert package.id package).lookup id = some prev
    by_cases hid : id = package.id
    · subst hid
      rw [AList.lookup_insert] at hprev ⊢
      exact hprev
    · rw [AList.lookup_insert_ne hid] at hprev ⊢
      exact hcurrent prev hprev

variable {user : UserId} {now : Nat}

mutual

/-- Which packages an install is of depends on what lies outside alone. -/
theorem touches_congr (h : t.bundles = s.bundles) : ∀ a : Attempt, t.touches a = s.touches a
  | .mk place _ deps _ _ _ => by
    have hname : t.nameAt place = s.nameAt place := by
      cases place with
      | bundle path => rw [nameAt, nameAt, h]
      | installed id => rfl
    rw [touches, touches, hname, touchesAll_congr h deps]

theorem touchesAll_congr (h : t.bundles = s.bundles) :
    ∀ as : List Attempt, t.touchesAll as = s.touchesAll as
  | [] => by rw [touchesAll, touchesAll]
  | a :: rest => by rw [touchesAll, touchesAll, touches_congr h a, touchesAll_congr h rest]

end

theorem promptFor_diff {package : Package} {p : Prompt}
    (h : s.promptFor policy user now package = some p) :
    p.diff = policy.widening p.package p.prev := by
  unfold promptFor at h
  split at h
  · split at h
    · rw [← Option.some.inj h]
    · cases h
  · cases h

/-- No prompt is made for a package that runs only where it gains nothing. -/
theorem widening_of_no_prompt {package existing : Package}
    (hruns : s.registry.lookup package.id = some existing)
    (h : s.promptFor policy user now package = none) : policy.widening package existing = [] := by
  unfold promptFor at h
  rw [hruns] at h
  by_contra hne
  dsimp only at h
  rw [if_pos hne] at h
  cases h

/-- **An install**, once its dependencies are as they should be, leaves everything so, where the
package may come to run. -/
theorem node_keeps {how : How} {place : Place} {deps : List Attempt}
    {aside staged declared starts : Bool} (h : s.Kept policy)
    (hdeps : ∀ package, s.packageAt place = some package → ∀ t : Shelf, t.Kept policy →
      Leaves [] s t → (installAll policy user now deps t).2.Kept policy ∧
        Leaves (s.touchesAll deps) t (installAll policy user now deps t).2)
    (hsound : ∀ package, s.packageAt place = some package → ∀ t : Shelf, t.Kept policy →
      Leaves (s.touchesAll deps) s t →
      (if how.isApproved then none else t.promptFor policy user now package) = none →
        Coming.Sound policy ⟨t.ran.lookup package.id, package, how⟩) :
    let r := installInner policy user now how (.mk place aside deps staged declared starts) s
    r.2.Kept policy ∧ Leaves (s.touches (.mk place aside deps staged declared starts)) s r.2 ∧
      ∀ p, r.1 = .prompt p → p.diff = policy.widening p.package p.prev := by
  have hsub : s.touchesAll deps ⊆ s.touches (.mk place aside deps staged declared starts) := by
    rw [touches]
    exact List.subset_append_right _ _
  dsimp only
  rw [installInner]
  split
  · exact ⟨h, .refl _ _, fun _ h => nomatch h⟩
  · next package hplace =>
    have hname : [package.id] ⊆ s.touches (.mk place aside deps staged declared starts) := by
      rw [touches]
      exact List.subset_append_of_subset_left _ (by simpa using name_mem h hplace)
    split
    · exact ⟨h, .refl _ _, fun _ h => nomatch h⟩
    · have hpersist := h.persist place package
      have hleaves := leaves_persist [] s place package
      dsimp only
      split
      · exact ⟨hpersist, hleaves.mono (List.nil_subset _), fun _ h => nomatch h⟩
      · obtain ⟨hkept, hmore⟩ := hdeps package hplace _ hpersist hleaves
        have hall := hleaves.trans hmore
        rw [List.nil_append] at hall
        split
        · next t heq =>
          rw [heq] at hkept hall
          exact ⟨hkept, hall.mono hsub, fun _ h => nomatch h⟩
        · next t heq =>
          rw [heq] at hkept hall
          dsimp only at hkept hall
          split
          · exact ⟨hkept, hall.mono hsub, fun _ h => nomatch h⟩
          · split
            · next p hp =>
              refine ⟨⟨hkept.named, hkept.ran, hkept.diffs, hkept.came⟩, ?_, fun q hq => ?_⟩
              · exact Leaves.mono ⟨hall.bundles, hall.prompts, hall.registry, hall.ran,
                  hall.current⟩ hsub
              · obtain rfl : p = q := by simpa using hq
                split at hp
                · cases hp
                · exact promptFor_diff hp
            · next hnone =>
              split
              · have hruns := hsound package hplace t hkept hall hnone
                refine ⟨hkept.comesToRun hruns, ?_, fun _ h => nomatch h⟩
                exact (hall.trans (leaves_comesToRun t how package)).mono
                  (List.append_subset.2 ⟨hsub, hname⟩)
              · exact ⟨hkept, hall.mono hsub, fun _ h => nomatch h⟩

mutual

/-- An install not approved, of packages that run as they last ran. -/
theorem installInner_keeps : ∀ (a : Attempt) (s : Shelf), s.Kept policy →
    (∀ id ∈ s.touches a, s.Current id) →
      let r := installInner policy user now .installed a s
      r.2.Kept policy ∧ Leaves (s.touches a) s r.2 ∧
        ∀ p, r.1 = .prompt p → p.diff = policy.widening p.package p.prev
  | .mk place aside deps staged declared starts, s, h, hcurrent => by
    rw [touches] at hcurrent
    refine node_keeps h (fun _ _ t ht hleaves => ?_) fun package hplace t ht hleaves hnone => ?_
    · rw [← touchesAll_congr hleaves.bundles deps]
      refine installAll_keeps deps t ht fun id hid => ?_
      rw [touchesAll_congr hleaves.bundles] at hid
      exact hleaves.current id (hcurrent id (List.mem_append_right _ hid))
    · intro prev hprev
      have hruns := hleaves.current package.id
        (hcurrent package.id (List.mem_append_left _ (name_mem h hplace))) prev hprev
      exact widening_of_no_prompt hruns hnone

/-- Dependencies installed one after another. -/
theorem installAll_keeps : ∀ (as : List Attempt) (s : Shelf), s.Kept policy →
    (∀ id ∈ s.touchesAll as, s.Current id) →
      (installAll policy user now as s).2.Kept policy ∧
        Leaves (s.touchesAll as) s (installAll policy user now as s).2
  | [], s, h, _ => by
    rw [installAll]
    exact ⟨h, .refl _ _⟩
  | a :: rest, s, h, hcurrent => by
    rw [touchesAll] at hcurrent ⊢
    obtain ⟨hkept, hleaves, -⟩ := installInner_keeps a s h fun id hid =>
      hcurrent id (List.mem_append_left _ hid)
    rw [installAll]
    split
    · next t heq =>
      rw [heq] at hkept hleaves
      obtain ⟨hkept', hleaves'⟩ := installAll_keeps rest t hkept fun id hid => by
        rw [touchesAll_congr hleaves.bundles] at hid
        exact hleaves.current id (hcurrent id (List.mem_append_right _ hid))
      rw [touchesAll_congr hleaves.bundles] at hleaves'
      exact ⟨hkept', hleaves.trans hleaves'⟩
    · next t hne heq =>
      rw [heq] at hkept hleaves
      exact ⟨hkept, hleaves.mono (List.subset_append_left _ _)⟩

end

/-! ### The other steps -/

theorem Kept.install (h : s.Kept policy) {a : Attempt}
    (hmeets : ∀ id ∈ s.touches a, s.Current id) :
    (s.step policy (.install user now a)).Kept policy := by
  obtain ⟨hkept, hleaves, hdiff⟩ := @installInner_keeps policy user now a s h hmeets
  unfold Shelf.step
  dsimp only
  split
  · next p t heq =>
    rw [heq] at hkept hdiff
    refine ⟨hkept.named, hkept.ran, fun q hq => ?_, hkept.came⟩
    rcases List.mem_append.1 hq with hq | hq
    · exact hkept.diffs q hq
    · rw [List.mem_singleton.1 hq]
      exact hdiff p rfl
  · next t hne heq =>
    rw [heq] at hkept
    exact hkept

/-- An approval of a prompt that was shown, with the package it was about still there. -/
theorem Kept.approve (h : s.Kept policy) {token : String} {a : Attempt}
    (henabled : s.enabled (.approve user token now a))
    (hmeets : s.Meets policy (.approve user token now a)) :
    (s.step policy (.approve user token now a)).Kept policy := by
  unfold Shelf.step
  dsimp only
  split
  · next place hplace =>
    obtain ⟨_, aside, deps, staged, declared, starts⟩ := a
    let s' : Shelf := { s with pending := s.pending.erase (user, token) }
    have h' : s'.Kept policy := ⟨h.named, h.ran, h.diffs, h.came⟩
    show (installInner policy user now (.approved (s.shown user token))
      (.mk place aside deps staged declared starts) s').2.Kept policy
    have hnames : s'.touchesAll deps = s.touchesAll deps :=
      touchesAll_congr (show s'.bundles = s.bundles from rfl) deps
    refine (node_keeps h' (fun package hpackage t ht hleaves => ?_)
      fun package hpackage t ht hleaves _ => ?_).1
    · have hcurrent := (hmeets place hplace package hpackage).2.2
      have hsame : t.touchesAll deps = s'.touchesAll deps := touchesAll_congr hleaves.bundles deps
      rw [← hsame]
      refine installAll_keeps deps t ht fun id hid => hleaves.current id ?_
      rw [hsame, hnames] at hid
      exact hcurrent id hid
    · obtain ⟨hshown, hprompts, -⟩ := hmeets place hplace package hpackage
      have hother : package.id ∉ s.touchesAll deps := henabled place hplace package hpackage
      refine ⟨hshown, fun p hp => ⟨(hprompts p hp).1, fun prev hprev gain hgain => ?_⟩⟩
      have hdiff := h.diffs p (List.mem_of_mem_filter hp)
      have hover := h.ran package.id p.prev (hprompts p hp).2
      -- its dependencies left what runs under its name alone
      have hsame : t.ran.lookup package.id = s.ran.lookup package.id :=
        hleaves.ran package.id (hnames ▸ hother)
      rw [hsame, hover, Option.some.injEq] at hprev
      rw [hdiff, (hprompts p hp).1, hprev]
      exact hgain
  · exact h

theorem Kept.uninstall (h : s.Kept policy) (id : HarnessId) :
    (s.step policy (.uninstall id)).Kept policy := by
  unfold Shelf.step
  dsimp only
  split
  · refine ⟨fun id' copy hcopy => ?_, fun id' package hp => ?_, h.diffs, h.came⟩
    · have hcopy : (s.installed.erase id).lookup id' = some copy := hcopy
      by_cases hid : id' = id
      · subst hid
        rw [AList.lookup_erase] at hcopy
        cases hcopy
      · rw [AList.lookup_erase_ne hid] at hcopy
        exact h.named id' copy hcopy
    · have hp : (s.registry.erase id).lookup id' = some package := hp
      show (s.ran.erase id).lookup id' = some package
      by_cases hid : id' = id
      · subst hid
        rw [AList.lookup_erase] at hp
        cases hp
      · rw [AList.lookup_erase_ne hid] at hp ⊢
        exact h.ran id' package hp
  · exact h

/-! ### A start -/

/-- The copies loaded so far at a start, from `s`. -/
structure Reloading (policy : Policy) (s : Shelf) (loads : HarnessId → Bool) (t : Shelf) :
    Prop where
  kept : t.Kept policy
  copies : ∀ id copy prev, s.installed.lookup id = some copy → t.ran.lookup id = some prev →
    loads id = true → copy = prev

variable {loads : HarnessId → Bool}

/-- One more copy is loaded: it is the one that ran. -/
theorem Reloading.load (h : Reloading policy s loads t) (hs : s.Kept policy) {id : HarnessId}
    {copy : Package} (hcopy : s.installed.lookup id = some copy) (hloads : loads id = true) :
    Reloading policy s loads (t.comesToRun .restarted copy) := by
  obtain rfl := hs.named id copy hcopy
  refine ⟨h.kept.comesToRun fun prev hprev => h.copies copy.id copy prev hcopy hprev hloads,
    fun id other prev hother hprev hloaded => ?_⟩
  have hprev : (t.ran.insert copy.id copy).lookup id = some prev := hprev
  by_cases hid : id = copy.id
  · subst hid
    rw [AList.lookup_insert, Option.some.injEq] at hprev
    rw [hcopy, Option.some.injEq] at hother
    exact hother.symm.trans hprev
  · rw [AList.lookup_insert_ne hid] at hprev
    exact h.copies id other prev hother hprev hloaded

/-- After a start what runs is what ran. -/
theorem reload_keeps (hs : s.Kept policy)
    (hcopies : ∀ id copy prev, s.installed.lookup id = some copy → s.ran.lookup id = some prev →
      loads id = true → copy = prev) : (s.reload loads).Kept policy := by
  have hloop : ∀ (entries : List (Σ _ : HarnessId, Package)) (t : Shelf),
      (∀ e ∈ entries, s.installed.lookup e.1 = some e.2) → Reloading policy s loads t →
        Reloading policy s loads (entries.foldl
          (fun s e => if loads e.1 then s.comesToRun .restarted e.2 else s) t) := by
    intro entries
    induction entries with
    | nil => exact fun t _ ht => ht
    | cons e rest ih =>
      intro t hentries ht
      have hcopy := hentries e List.mem_cons_self
      refine ih _ (fun e he => hentries e (List.mem_cons_of_mem _ he)) ?_
      dsimp only
      split
      · next hload => exact ht.load hs hcopy hload
      · exact ht
  have hstart : Reloading policy s loads { s with registry := ∅, pending := ∅ } :=
    ⟨⟨hs.named, (fun id package h => nomatch h), hs.diffs, hs.came⟩, hcopies⟩
  exact (hloop s.installed.entries _ (fun e he => AList.mem_lookup_iff.2 he) hstart).kept

/-- A package that does not run any more. -/
theorem Kept.erase (h : s.Kept policy) (id : HarnessId) :
    ({ s with registry := s.registry.erase id } : Shelf).Kept policy := by
  refine ⟨h.named, fun id' package hp => h.ran id' package ?_, h.diffs, h.came⟩
  have hp : (s.registry.erase id).lookup id' = some package := hp
  by_cases hid : id' = id
  · rw [hid, AList.lookup_erase] at hp
    cases hp
  · rwa [AList.lookup_erase_ne hid] at hp

theorem Kept.settleOne (h : s.Kept policy) {d : Dependent} (hcurrent : s.CurrentFor d) :
    (s.settleOne policy user now d).Kept policy := by
  rw [Shelf.settleOne]
  cases hdeps : d.deps with
  | none => exact h.erase d.id
  | some deps =>
    obtain ⟨hkept, -⟩ := @installAll_keeps policy user now deps s h (hcurrent deps hdeps)
    rw [Option.map_some, Option.getD_some]
    split
    · next t heq =>
      rw [heq] at hkept
      exact hkept
    · next t heq =>
      rw [heq] at hkept
      exact hkept.erase d.id

theorem settle_keeps (h : s.Kept policy) {dependents : List Dependent}
    (hcurrent : ∀ before d after, dependents = before ++ d :: after →
      (before.foldl (Shelf.settleOne policy user now) s).CurrentFor d)
    (undeclared : List HarnessId) :
    (settle policy user now dependents undeclared s).Kept policy := by
  have hsettled : (dependents.foldl (Shelf.settleOne policy user now) s).Kept policy := by
    induction dependents generalizing s with
    | nil => exact h
    | cons d rest ih =>
      refine ih (h.settleOne (hcurrent [] d rest rfl)) fun before d' after hsplit => ?_
      exact hcurrent (d :: before) d' after (congrArg (d :: ·) hsplit)
  rw [settle]
  generalize dependents.foldl (Shelf.settleOne policy user now) s = t at hsettled
  induction undeclared generalizing t with
  | nil => exact hsettled
  | cons id rest ih => exact ih _ (hsettled.erase id)

theorem Kept.restart (h : s.Kept policy) {dependents : List Dependent}
    {undeclared : List HarnessId}
    (hmeets : s.Meets policy (.restart user now loads dependents undeclared)) :
    (s.step policy (.restart user now loads dependents undeclared)).Kept policy :=
  settle_keeps (reload_keeps h hmeets.1) hmeets.2 undeclared

theorem Kept.step (h : s.Kept policy) {act : Act} (henabled : s.enabled act)
    (hmeets : s.Meets policy act) : (s.step policy act).Kept policy := by
  cases act with
  | edit path package => cases package <;> exact ⟨h.named, h.ran, h.diffs, h.came⟩
  | install user now a => exact h.install hmeets
  | approve user token now a => exact h.approve henabled hmeets
  | uninstall id => exact h.uninstall id
  | restart user now loads dependents undeclared => exact h.restart hmeets

/-- A new environment: nothing installed. -/
@[grind =]
def fresh (bundles : Table String Package) : Shelf :=
  ⟨bundles, ∅, ∅, ∅, [], [], ∅⟩

end Shelf

def installs (policy : Policy) : System Shelf Act where
  step := Shelf.step policy
  enabled := Shelf.enabled

/-- **Capabilities widen only as approved**, in every run in which installs find the packages
they are of running as they last ran, approvals are of prompts shown and find the package the
prompt was about, and starts find the copies that ran. -/
theorem widened_as_approved {policy : Policy} {bundles : Table String Package} {s : Shelf}
    (hrun : (installs policy).Runs (Shelf.Meets policy) (.fresh bundles) s) :
    ∀ e ∈ s.came, e.Sound policy :=
  have hkept : s.Kept policy := hrun.invariant (I := Shelf.Kept policy)
    ⟨(fun _ _ h => nomatch h), (fun _ _ h => nomatch h), (fun _ h => nomatch h),
      (fun _ h => nomatch h)⟩
    fun _ _ h henabled hmeets => h.step henabled hmeets
  hkept.came

/-! ### An update approved, and one left unanswered -/

def notesOne : Package :=
  ⟨"notes", {}, "one"⟩

/-- The next version starts processes. -/
def notesTwo : Package :=
  ⟨"notes", { spawn := true }, "two"⟩

def plainPolicy : Policy :=
  ⟨true, "workspace"⟩

/-- An install of what lies in the one directory outside, in which nothing fails. -/
def smooth : Attempt :=
  .mk (.bundle "notes") false [] true true true

/-- The first version is installed, and the second prompts. -/
def updating : List Act :=
  [.install "ana" 1 smooth, .edit "notes" (some notesTwo), .install "ana" 2 smooth]

def prompted : Shelf :=
  (installs plainPolicy).run (.fresh (AList.singleton "notes" notesOne)) updating

theorem prompted_runs : (installs plainPolicy).Runs (Shelf.Meets plainPolicy)
    (.fresh (AList.singleton "notes" notesOne)) prompted := by
  have hone : (installs plainPolicy).Runs (Shelf.Meets plainPolicy)
      (.fresh (AList.singleton "notes" notesOne))
      ((installs plainPolicy).run (.fresh (AList.singleton "notes" notesOne))
        [.install "ana" 1 smooth]) :=
    System.Runs.tail (a := Act.install "ana" 1 smooth) .refl trivial
      fun _ _ _ h => nomatch h
  have hedited := System.Runs.tail (a := Act.edit "notes" (some notesTwo)) hone trivial trivial
  refine System.Runs.tail (a := Act.install "ana" 2 smooth) hedited trivial ?_
  show ∀ id ∈ Shelf.touches _ smooth, Shelf.Current _ id
  decide

/-- The prompt's approval brings the second version in, as it was shown. -/
theorem approved_widens :
    (⟨some notesOne, notesTwo, .approved (prompted.shown "ana" "t2")⟩ : Coming).Sound
      plainPolicy := by
  have hmem : (⟨some notesOne, notesTwo, .approved (prompted.shown "ana" "t2")⟩ : Coming) ∈
      (prompted.step plainPolicy (.approve "ana" "t2" 3 smooth)).came := by
    decide
  refine widened_as_approved (System.Runs.tail (a := Act.approve "ana" "t2" 3 smooth)
    prompted_runs ?_ ?_) _ hmem
  · show ∀ place ∈ prompted.pending.lookup ("ana", "t2"),
      ∀ package ∈ prompted.packageAt place, package.id ∉ prompted.touchesAll smooth.deps
    decide
  · show ∀ place ∈ prompted.pending.lookup ("ana", "t2"),
      ∀ package ∈ prompted.packageAt place, prompted.shown "ana" "t2" ≠ [] ∧
        (∀ p ∈ prompted.shown "ana" "t2", p.package = package ∧
          prompted.registry.lookup package.id = some p.prev) ∧
        ∀ id ∈ prompted.touchesAll smooth.deps, prompted.Current id
    decide

/-- The prompt is left unanswered, and the second version runs from the next start on. -/
theorem unanswered_widens : ∃ s, (installs plainPolicy).Runs (fun _ _ => True)
      (.fresh (AList.singleton "notes" notesOne)) s ∧
    s.came.getLast? = some ⟨some notesOne, notesTwo, .restarted⟩ ∧
    plainPolicy.widening notesTwo notesOne = ["spawn subprocesses: no -> yes"] ∧
    ¬∀ e ∈ s.came, e.Sound plainPolicy := by
  refine ⟨prompted.step plainPolicy (.restart "ana" 3 (fun _ => true) [] []), ?_, ?_, ?_, ?_⟩
  · exact System.Runs.tail (a := Act.restart "ana" 3 (fun _ => true) [] [])
      (prompted_runs.mono fun _ _ _ => trivial) trivial trivial
  · decide
  · decide
  · intro h
    have hmem : (⟨some notesOne, notesTwo, .restarted⟩ : Coming) ∈
        (prompted.step plainPolicy (.restart "ana" 3 (fun _ => true) [] [])).came := by
      decide
    have hsound := h _ hmem notesOne rfl
    exact absurd hsound (by decide)

end LocalSpace.Installs
