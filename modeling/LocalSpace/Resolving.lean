import Mathlib.Data.Prod.Lex
import LocalSpace.Library.Listings
import LocalSpace.Manifests

/-!
# Resolving dependencies

`deps.rs`: what a package needs is picked from what is installed and what is offered, breadth first
and without going back: a version dependency takes the highest version that meets it, an interface
dependency any provider, and either prefers what is installed. What is to be installed is listed in
the reverse of the order in which it was found.
-/

namespace LocalSpace

namespace Deps

open Library

/-- One `[dependencies]` entry; an interface dependency has no requirement. -/
structure Dependency where
  id : String
  req : Option String
  optional : Bool
  interface : Bool
  deriving DecidableEq

/-- A package the resolver may pick: installed, or offered by the catalog. -/
structure Candidate where
  id : String
  version : String
  provides : List String
  deps : List Dependency
  installed : Bool
  deriving DecidableEq

structure Resolution where
  /-- Packages to install, with their versions. -/
  install : List (String × String)
  /-- `(interface, provider id)` for every interface dependency met. -/
  bindings : List (String × String)
  deriving DecidableEq

inductive ResolveError where
  | missing (id req wantedBy : String)
  | conflict (id : String) (first second : String × String)
  | noProvider (interface wantedBy : String)
  | unknown (id : String)
  deriving DecidableEq

def versionSatisfies (req version : String) : Bool :=
  Manifests.apiRangeAccepts req version

def parseVersion (v : String) : ℕ × ℕ × ℕ :=
  let part (i : ℕ) : ℕ :=
    (((Manifests.splitAtChar '.' (trim v).toList)[i]?).bind fun p => parseU32 (String.ofList p)).getD 0
  (part 0, part 1, part 2)

/-- What is preferred: the installed, and then the highest version. -/
def rank (c : Candidate) : Bool ×ₗ ℕ ×ₗ ℕ ×ₗ ℕ :=
  let (major, minor, patch) := parseVersion c.version
  toLex (c.installed, toLex (major, toLex (minor, patch)))

/-- Who first asked for a package that is chosen, and with what requirement. -/
structure Choice where
  version : String
  wantedBy : String
  req : String

/-- The walk: what is chosen by id, the packages to install as they were found, and those whose
dependencies are still to be asked for. -/
structure Walk where
  chosen : String → Option Choice
  order : List (String × String)
  bindings : List (String × String)
  queue : List (String × String)

/-- A package is chosen: it is to be installed if it is not, and asked for its dependencies. -/
@[grind =]
def Walk.choose (w : Walk) (c : Candidate) (wantedBy req : String) : Walk :=
  { w with
    chosen := Function.update w.chosen c.id (some ⟨c.version, wantedBy, req⟩)
    order := if c.installed then w.order else w.order ++ [(c.id, c.version)]
    queue := w.queue ++ [(c.id, c.version)] }

@[grind =]
def Walk.bind (w : Walk) (interface : String) (p : Candidate) : Walk :=
  { w with bindings := w.bindings ++ [(interface, p.id)] }

section Resolve

variable (candidates : List Candidate)

/-- Any provider will do; what is installed is preferred. -/
def provider (interface : String) : Option Candidate :=
  maxByKey rank (candidates.filter fun c => c.provides.contains interface)

/-- An installed version that satisfies wins; otherwise the highest offered one that does. -/
def pick (id req : String) : Option Candidate :=
  maxByKey rank (candidates.filter fun c => c.id = id && versionSatisfies req c.version)

def requirement (dep : Dependency) : String :=
  dep.req.getD "*"

def askInterface (dependent : String) (dep : Dependency) (w : Walk) : Except ResolveError Walk :=
  match provider candidates dep.id with
  | some p =>
    if w.bindings.any fun b => b.1 = dep.id then .ok w
    else if !p.installed && (w.chosen p.id).isNone then
      .ok ((w.bind dep.id p).choose p dependent ("provides " ++ dep.id))
    else .ok (w.bind dep.id p)
  | none => if dep.optional then .ok w else .error (.noProvider dep.id dependent)

def askVersion (dependent : String) (dep : Dependency) (w : Walk) : Except ResolveError Walk :=
  let req := requirement dep
  match w.chosen dep.id with
  | some c =>
    if !versionSatisfies req c.version then
      .error (.conflict dep.id (c.wantedBy, c.req) (dependent, req))
    else .ok w
  | none =>
    match pick candidates dep.id req with
    | some c =>
      match candidates.find? fun x =>
          x.id = dep.id && x.installed && !versionSatisfies req x.version with
      | some inst => .error (.conflict dep.id ("installed", "=" ++ inst.version) (dependent, req))
      | none => .ok (w.choose c dependent req)
    | none => if dep.optional then .ok w else .error (.missing dep.id req dependent)

/-- One dependency of one dependent. -/
def ask (dependent : String) (dep : Dependency) (w : Walk) : Except ResolveError Walk :=
  if dep.interface then askInterface candidates dependent dep w
  else askVersion candidates dependent dep w

/-- The package of an id at a version. -/
@[grind =]
def found (pkg : String × String) : Option Candidate :=
  candidates.find? fun c => c.id = pkg.1 && c.version = pkg.2

/-- The walk through the queue: `none` where the fuel does not last, which it does
(`resolve_isSome`). -/
@[grind =]
def walk : ℕ → Walk → Option (Except ResolveError Walk)
  | 0, _ => none
  | fuel + 1, w =>
    match w.queue with
    | [] => some (.ok w)
    | pkg :: queue =>
      match found candidates pkg with
      | none => walk fuel { w with queue }
      | some c =>
        match c.deps.foldlM (fun w dep => ask candidates pkg.1 dep w) { w with queue } with
        | .ok w' => walk fuel w'
        | .error e => some (.error e)

/-- The walk at its start, with a package whose dependencies are to be asked for. -/
def startWalk (c : Candidate) : Walk :=
  ⟨fun _ => none, [], [], [(c.id, c.version)]⟩

/-- Everything that a root needs. -/
@[grind =]
def resolve (root : String) : Option (Except ResolveError Resolution) :=
  match candidates.find? fun c => c.id = root with
  | none => some (.error (.unknown root))
  | some c =>
    (walk candidates (candidates.length + 2) (startWalk c)).map fun r =>
      r.map fun w => ⟨w.order.reverse, w.bindings⟩

end Resolve

/-! ### The run -/

/-- **The states of a run**: a package with those of its dependencies that are still to be asked for,
and the walk so far. -/
inductive Asking (candidates : List Candidate) (root : String) :
    String × String → List Dependency → Walk → Prop
  | start {c : Candidate} (h : candidates.find? (fun c => c.id = root) = some c) :
    Asking candidates root (c.id, c.version) [] (startWalk c)
  | skip {pkg next : String × String} {queue : List (String × String)} {w : Walk}
    (h : Asking candidates root pkg [] w) (hqueue : w.queue = next :: queue)
    (hfound : found candidates next = none) : Asking candidates root next [] { w with queue }
  | pop {pkg next : String × String} {queue : List (String × String)} {w : Walk} {c : Candidate}
    (h : Asking candidates root pkg [] w) (hqueue : w.queue = next :: queue)
    (hfound : found candidates next = some c) : Asking candidates root next c.deps { w with queue }
  | ask {pkg : String × String} {dep : Dependency} {rest : List Dependency} {w w' : Walk}
    (h : Asking candidates root pkg (dep :: rest) w)
    (hask : Deps.ask candidates pkg.1 dep w = .ok w') : Asking candidates root pkg rest w'

section Run

variable {candidates : List Candidate} {root : String} {pkg : String × String}
  {deps rest : List Dependency} {dep : Dependency} {w w' : Walk} {r : Resolution} {fuel : ℕ}

/-- The dependencies of a package are asked for one after another. -/
theorem Asking.foldlM (h : Asking candidates root pkg deps w)
    (hasks : deps.foldlM (fun w dep => Deps.ask candidates pkg.1 dep w) w = .ok w') :
    Asking candidates root pkg [] w' := by
  induction deps generalizing w with
  | nil =>
    cases hasks
    exact h
  | cons dep deps ih =>
    rw [List.foldlM_cons] at hasks
    rcases hask : Deps.ask candidates pkg.1 dep w with e | next
    · rw [hask] at hasks
      cases hasks
    · rw [hask] at hasks
      exact ih (h.ask hask) hasks

/-- What the walk comes to, the run comes to, with nothing left to ask for. -/
theorem Asking.walk (h : Asking candidates root pkg [] w)
    (hwalk : Deps.walk candidates fuel w = some (.ok w')) :
    ∃ pkg', Asking candidates root pkg' [] w' ∧ w'.queue = [] := by
  induction fuel generalizing pkg w with
  | zero => cases hwalk
  | succ fuel ih =>
    rw [Deps.walk] at hwalk
    split at hwalk
    · rename_i hempty
      cases hwalk
      exact ⟨pkg, h, hempty⟩
    · rename_i next queue hqueue
      split at hwalk
      · rename_i hnone
        exact ih (h.skip hqueue hnone) hwalk
      · rename_i c hfound
        split at hwalk
        · rename_i w₁ hasks
          exact ih ((h.pop hqueue hfound).foldlM hasks) hwalk
        · cases hwalk

/-- **A resolution** is what a run comes to. -/
theorem resolve_run (h : resolve candidates root = some (.ok r)) :
    ∃ pkg w, Asking candidates root pkg [] w ∧ w.queue = [] ∧ r = ⟨w.order.reverse, w.bindings⟩ := by
  rw [resolve] at h
  split at h
  · cases h
  · rename_i c hc
    rcases hwalk : Deps.walk candidates (candidates.length + 2) (startWalk c) with _ | e | w
    · rw [hwalk] at h
      cases h
    · rw [hwalk] at h
      cases h
    · rw [hwalk] at h
      cases h
      obtain ⟨pkg, hrun, hqueue⟩ := (Asking.start hc).walk hwalk
      exact ⟨pkg, w, hrun, hqueue, rfl⟩

end Run

/-! ### What one asking comes to -/

/-- A dependency is met: an interface by its provider, a version by what is chosen; or it is optional,
and there is nothing to meet it. -/
@[grind =]
def Met (candidates : List Candidate) (w : Walk) (dep : Dependency) : Prop :=
  if dep.interface then
    (∃ p, provider candidates dep.id = some p ∧ (dep.id, p.id) ∈ w.bindings) ∨
      dep.optional = true ∧ provider candidates dep.id = none
  else
    (∃ c, w.chosen dep.id = some c ∧ versionSatisfies (requirement dep) c.version = true) ∨
      dep.optional = true ∧ pick candidates dep.id (requirement dep) = none

/-- Why a package is chosen that was not: it is offered and provides an interface, or is picked for a
version, where every installed version would do. -/
inductive Chosen (candidates : List Candidate) (dep : Dependency) (w : Walk) (c : Candidate) : Prop
  | provides (hinterface : dep.interface = true) (hprovider : provider candidates dep.id = some c)
    (hoffered : c.installed = false)
  | picked (hversion : dep.interface = false)
    (hpick : pick candidates dep.id (requirement dep) = some c)
    (hinstalled : ∀ x ∈ candidates, x.installed = true → x.id = dep.id →
      versionSatisfies (requirement dep) x.version = true)

/-- Why an asking leaves a walk as it is. -/
inductive Already (candidates : List Candidate) (dep : Dependency) (w : Walk) : Prop
  | bound {p : Candidate} {b : String × String} (hinterface : dep.interface = true)
    (hprovider : provider candidates dep.id = some p) (hb : b ∈ w.bindings) (hid : b.1 = dep.id)
  | nobody (hinterface : dep.interface = true) (hoptional : dep.optional = true)
    (hprovider : provider candidates dep.id = none)
  | agrees {c : Choice} (hversion : dep.interface = false) (hchosen : w.chosen dep.id = some c)
    (hmeets : versionSatisfies (requirement dep) c.version = true)
  | nothing (hversion : dep.interface = false) (hoptional : dep.optional = true)
    (hpick : pick candidates dep.id (requirement dep) = none)

/-- What an asking leaves of a walk: everything as it is, or else a binding more, or a package. -/
inductive Asked (candidates : List Candidate) (dep : Dependency) (w : Walk) : Walk → Prop
  | same (h : Already candidates dep w) : Asked candidates dep w w
  | bound {p : Candidate} (hinterface : dep.interface = true)
    (hprovider : provider candidates dep.id = some p)
    (hheld : p.installed = true ∨ (w.chosen p.id).isSome) : Asked candidates dep w (w.bind dep.id p)
  | chosen {c : Candidate} {bindings : List (String × String)} {by' req : String}
    (hbindings : bindings = if dep.interface then w.bindings ++ [(dep.id, c.id)] else w.bindings)
    (hchosen : Chosen candidates dep w c) (hnew : w.chosen c.id = none) :
    Asked candidates dep w (({ w with bindings } : Walk).choose c by' req)

section Asks

variable {candidates : List Candidate} {dependent : String} {dep : Dependency} {w w' : Walk}
  {c p : Candidate} {id req interface : String}

theorem provider_spec (h : provider candidates interface = some p) :
    p ∈ candidates ∧ interface ∈ p.provides ∧
      ∀ x ∈ candidates, interface ∈ x.provides → rank x ≤ rank p := by
  obtain ⟨hmem, hgreatest⟩ := maxByKey_greatest h
  simp only [List.mem_filter, List.contains_eq_mem, decide_eq_true_eq] at hmem hgreatest
  exact ⟨hmem.1, hmem.2, fun x hx hprovides => hgreatest x ⟨hx, hprovides⟩⟩

theorem pick_spec (h : pick candidates id req = some c) :
    c ∈ candidates ∧ c.id = id ∧ versionSatisfies req c.version = true ∧
      ∀ x ∈ candidates, x.id = id → versionSatisfies req x.version = true → rank x ≤ rank c := by
  obtain ⟨hmem, hgreatest⟩ := maxByKey_greatest h
  simp only [List.mem_filter, Bool.and_eq_true, decide_eq_true_eq] at hmem hgreatest
  exact ⟨hmem.1, hmem.2.1, hmem.2.2, fun x hx hid hmeets => hgreatest x ⟨hx, hid, hmeets⟩⟩

/-- Nothing is picked only where nothing would do. -/
theorem pick_none (h : pick candidates id req = none) (hc : c ∈ candidates) (hid : c.id = id) :
    versionSatisfies req c.version = false := by
  by_contra hmeets
  rw [Bool.not_eq_false] at hmeets
  have hmem : c ∈ candidates.filter fun c => c.id = id && versionSatisfies req c.version := by
    simp [hc, hid, hmeets]
  have hsome := maxByKey_isSome rank hmem
  rw [pick] at h
  rw [h] at hsome
  cases hsome

/-- What is preferred to something installed is installed. -/
theorem installed_of_rank (h : rank c ≤ rank p) (hc : c.installed = true) :
    p.installed = true := by
  rcases Prod.Lex.le_iff.mp h with hlt | ⟨heq, -⟩
  · rw [rank, rank, hc] at hlt
    exact absurd hlt (by simp)
  · rw [rank, rank, hc] at heq
    exact heq.symm

/-- **What one asking comes to**, where it comes to something. -/
theorem ask_spec (h : ask candidates dependent dep w = .ok w') :
    Asked candidates dep w w' := by
  rw [ask] at h
  split at h
  · rename_i hinterface
    rw [askInterface] at h
    split at h
    · rename_i p hprovider
      split at h
      · rename_i hany
        cases h
        obtain ⟨b, hb, hid⟩ := List.any_eq_true.mp hany
        exact .same (.bound hinterface hprovider hb (of_decide_eq_true hid))
      · split at h
        · rename_i hnew
          cases h
          rw [Bool.and_eq_true, Bool.not_eq_true', Option.isNone_iff_eq_none] at hnew
          exact .chosen (if_pos hinterface).symm (.provides hinterface hprovider hnew.1) hnew.2
        · rename_i hheld
          cases h
          refine .bound hinterface hprovider ?_
          rw [Bool.and_eq_true, Bool.not_eq_true', Option.isNone_iff_eq_none] at hheld
          rcases hp : p.installed with _ | _
          · exact .inr (Option.isSome_iff_ne_none.mpr fun hnone => hheld ⟨hp, hnone⟩)
          · exact .inl rfl
    · rename_i hnone
      split at h
      · rename_i hoptional
        cases h
        exact .same (.nobody hinterface hoptional hnone)
      · cases h
  · rename_i hversion
    rw [Bool.not_eq_true] at hversion
    rw [askVersion] at h
    split at h
    · rename_i c hchosen
      split at h
      · cases h
      · rename_i hmeets
        cases h
        rw [Bool.not_eq_true', Bool.not_eq_false] at hmeets
        exact .same (.agrees hversion hchosen hmeets)
    · rename_i hnew
      split at h
      · rename_i c hpick
        split at h
        · cases h
        · rename_i hnone
          cases h
          have hid := (pick_spec hpick).2.1
          rw [List.find?_eq_none] at hnone
          refine .chosen (by simp [hversion]) (.picked hversion hpick fun x hx hinst hx' => ?_)
            (hid ▸ hnew)
          have hx'' := hnone x hx
          simpa [hinst, hx'] using hx''
      · rename_i hpick
        split at h
        · rename_i hoptional
          cases h
          exact .same (.nothing hversion hoptional hpick)
        · cases h

/-! ### What a run keeps -/

/-- A walk grows: what is chosen, found and bound stays. -/
structure Grows (w w' : Walk) : Prop where
  chosen : ∀ id c, w.chosen id = some c → w'.chosen id = some c
  order : ∃ more, w'.order = w.order ++ more
  bindings : ∀ b ∈ w.bindings, b ∈ w'.bindings

theorem Grows.trans {w'' : Walk} (h : Grows w w') (h' : Grows w' w'') : Grows w w'' := by
  obtain ⟨more, hmore⟩ := h.order
  obtain ⟨more', hmore'⟩ := h'.order
  refine ⟨fun id c hc => h'.chosen id c (h.chosen id c hc), ⟨more ++ more', ?_⟩,
    fun b hb => h'.bindings b (h.bindings b hb)⟩
  rw [hmore', hmore, List.append_assoc]

theorem Asked.grows (h : Asked candidates dep w w') : Grows w w' := by
  rcases h with hsame | ⟨hinterface, hprovider, hheld⟩ | ⟨hbindings, hchosen, hnew⟩
  · exact ⟨fun _ _ h => h, ⟨[], (List.append_nil _).symm⟩, fun _ h => h⟩
  · exact ⟨fun _ _ h => h, ⟨[], (List.append_nil _).symm⟩, fun _ h => List.mem_append_left _ h⟩
  · rename_i c bindings by' req
    refine ⟨fun id ch h => ?_, ?_, fun b hb => ?_⟩
    · have hne : id ≠ c.id := by
        rintro rfl
        rw [hnew] at h
        cases h
      simpa [Walk.choose, hne] using h
    · simp only [Walk.choose]
      split
      · exact ⟨[], (List.append_nil _).symm⟩
      · exact ⟨_, rfl⟩
    · simp only [Walk.choose, hbindings]
      split
      · exact List.mem_append_left _ hb
      · exact hb

theorem Met.grows (h : Met candidates w dep) (hgrows : Grows w w') : Met candidates w' dep := by
  unfold Met at h ⊢
  split at h
  · rename_i hinterface
    rw [if_pos hinterface]
    refine h.imp_left ?_
    rintro ⟨p, hp, hb⟩
    exact ⟨p, hp, hgrows.bindings _ hb⟩
  · rename_i hversion
    rw [if_neg hversion]
    refine h.imp_left ?_
    rintro ⟨c, hc, hmeets⟩
    exact ⟨c, hgrows.chosen _ _ hc, hmeets⟩

/-- **What a walk keeps**: a package is listed once, at the version that is chosen; what is chosen is
listed, or else it is installed and nothing of it is listed; an interface is bound to its provider,
which is installed or chosen at a version. -/
structure Kept (candidates : List Candidate) (w : Walk) : Prop where
  distinct : (w.order.map Prod.fst).Nodup
  listed : ∀ pkg ∈ w.order, ∃ c, w.chosen pkg.1 = some c ∧ c.version = pkg.2
  held : ∀ id c, w.chosen id = some c → ∃ x ∈ candidates, x.id = id ∧ x.version = c.version ∧
    if x.installed then id ∉ w.order.map Prod.fst else (id, c.version) ∈ w.order
  bound : ∀ b ∈ w.bindings, ∃ p, provider candidates b.1 = some p ∧ p.id = b.2 ∧
    (p.installed = true ∨ (w.chosen p.id).isSome)

theorem Chosen.mem (h : Chosen candidates dep w c) : c ∈ candidates := by
  rcases h with ⟨-, hprovider, -⟩ | ⟨-, hpick, -⟩
  · exact (provider_spec hprovider).1
  · exact (pick_spec hpick).1

/-- **One asking keeps** what a walk keeps. -/
theorem Kept.asked (hkept : Kept candidates w) (h : Asked candidates dep w w') :
    Kept candidates w' := by
  rcases h with hsame | ⟨hinterface, hprovider, hheld⟩ | ⟨hbindings, hchosen, hnew⟩
  · exact hkept
  · refine ⟨hkept.distinct, hkept.listed, hkept.held, fun b hb => ?_⟩
    rcases List.mem_append.mp hb with hb | hb
    · exact hkept.bound b hb
    · cases List.mem_singleton.mp hb
      exact ⟨_, hprovider, rfl, hheld⟩
  · rename_i c bindings by' req
    -- nothing of a package is listed that is not chosen
    have hfresh : c.id ∉ w.order.map Prod.fst := by
      intro hmem
      obtain ⟨pkg, hpkg, hid⟩ := List.mem_map.mp hmem
      obtain ⟨ch, hch, -⟩ := hkept.listed pkg hpkg
      rw [hid, hnew] at hch
      cases hch
    have hgrows : Grows w (({ w with bindings } : Walk).choose c by' req) :=
      Asked.grows (.chosen hbindings hchosen hnew)
    refine ⟨?_, ?_, ?_, ?_⟩
    · simp only [Walk.choose]
      split
      · exact hkept.distinct
      · rw [List.map_append, List.nodup_append]
        refine ⟨hkept.distinct, by simp, ?_⟩
        rintro id hid _ hlast rfl
        simp only [List.map_cons, List.map_nil, List.mem_singleton] at hlast
        exact hfresh (hlast ▸ hid)
    · intro pkg hpkg
      have hcases : pkg ∈ w.order ∨ pkg = (c.id, c.version) := by
        simp only [Walk.choose] at hpkg
        split at hpkg
        · exact .inl hpkg
        · simpa using hpkg
      rcases hcases with hold | rfl
      · obtain ⟨ch, hch, hversion⟩ := hkept.listed pkg hold
        exact ⟨ch, hgrows.chosen _ _ hch, hversion⟩
      · exact ⟨⟨c.version, by', req⟩, by simp [Walk.choose], rfl⟩
    · intro id ch hch
      by_cases hid : id = c.id
      · subst hid
        obtain rfl : ch = ⟨c.version, by', req⟩ := by
          simp only [Walk.choose, Function.update_self, Option.some.injEq] at hch
          exact hch.symm
        refine ⟨c, hchosen.mem, rfl, rfl, ?_⟩
        rcases hinst : c.installed with _ | _
        · simp [Walk.choose, hinst]
        · simpa [Walk.choose, hinst] using hfresh
      · have hold : w.chosen id = some ch := by
          simpa [Walk.choose, hid] using hch
        obtain ⟨x, hx, hxid, hxversion, hplace⟩ := hkept.held id ch hold
        refine ⟨x, hx, hxid, hxversion, ?_⟩
        rcases hinst : x.installed with _ | _
        · simp only [hinst, Bool.false_eq_true, if_false] at hplace ⊢
          obtain ⟨more, hmore⟩ := hgrows.order
          rw [hmore]
          exact List.mem_append_left _ hplace
        · simp only [hinst, if_true] at hplace ⊢
          simp only [Walk.choose]
          split
          · exact hplace
          · simpa [hid] using hplace
    · intro b hb
      have hcases : b ∈ w.bindings ∨ dep.interface = true ∧ b = (dep.id, c.id) := by
        simp only [Walk.choose, hbindings] at hb
        split at hb
        · rename_i hinterface
          rcases List.mem_append.mp hb with hb | hb
          · exact .inl hb
          · exact .inr ⟨hinterface, List.mem_singleton.mp hb⟩
        · exact .inl hb
      rcases hcases with hold | ⟨hinterface, rfl⟩
      · obtain ⟨p, hp, hid, hheld⟩ := hkept.bound b hold
        refine ⟨p, hp, hid, hheld.imp_right fun hsome => ?_⟩
        obtain ⟨ch, hch⟩ := Option.isSome_iff_exists.mp hsome
        rw [hgrows.chosen _ _ hch]
        rfl
      · rcases hchosen with ⟨-, hprovider, -⟩ | ⟨hversion, -, -⟩
        · exact ⟨c, hprovider, rfl, .inr (by simp [Walk.choose])⟩
        · rw [hversion] at hinterface
          cases hinterface

/-- **What is asked for is met**, where it comes to something. -/
theorem Asked.met (h : Asked candidates dep w w') (hkept : Kept candidates w) :
    Met candidates w' dep := by
  unfold Met
  rcases h with hsame | ⟨hinterface, hprovider, hheld⟩ | ⟨hbindings, hchosen, hnew⟩
  · rcases hsame with ⟨hinterface, hprovider, hb, hid⟩ | ⟨hinterface, hoptional, hnone⟩ |
      ⟨hversion, hchosen, hmeets⟩ | ⟨hversion, hoptional, hnone⟩
    · rename_i p b
      rw [if_pos hinterface]
      obtain ⟨p', hp', hid', -⟩ := hkept.bound b hb
      rw [hid, hprovider] at hp'
      cases hp'
      exact .inl ⟨p, hprovider, by rw [← hid, hid']; exact hb⟩
    · rw [if_pos hinterface]
      exact .inr ⟨hoptional, hnone⟩
    · rw [if_neg (by simp [hversion])]
      exact .inl ⟨_, hchosen, hmeets⟩
    · rw [if_neg (by simp [hversion])]
      exact .inr ⟨hoptional, hnone⟩
  · rw [if_pos hinterface]
    exact .inl ⟨_, hprovider, by simp [Walk.bind]⟩
  · rename_i c bindings by' req
    rcases hchosen with ⟨hinterface, hprovider, -⟩ | ⟨hversion, hpick, -⟩
    · rw [if_pos hinterface]
      refine .inl ⟨c, hprovider, ?_⟩
      simp [Walk.choose, hbindings, hinterface]
    · obtain ⟨-, hid, hmeets, -⟩ := pick_spec hpick
      rw [if_neg (by simp [hversion])]
      exact .inl ⟨⟨c.version, by', req⟩, by simp [Walk.choose, hid], hmeets⟩

theorem Asked.queue (h : Asked candidates dep w w') : ∀ pkg ∈ w.queue, pkg ∈ w'.queue := by
  rcases h with hsame | ⟨hinterface, hprovider, hheld⟩ | ⟨hbindings, hchosen, hnew⟩
  · exact fun _ h => h
  · exact fun _ h => h
  · exact fun _ h => List.mem_append_left _ h

end Asks

section Invariants

variable {candidates : List Candidate} {root : String} {pkg next : String × String}
  {rest : List Dependency} {dep : Dependency} {w : Walk}

theorem grows_queue (w : Walk) (queue : List (String × String)) : Grows w { w with queue } :=
  ⟨fun _ _ h => h, ⟨[], (List.append_nil _).symm⟩, fun _ h => h⟩

theorem Asking.kept (h : Asking candidates root pkg rest w) : Kept candidates w := by
  induction h with
  | start h =>
    refine ⟨List.nodup_nil, ?_, ?_, ?_⟩
    · rintro _ ⟨⟩
    · rintro _ _ ⟨⟩
    · rintro _ ⟨⟩
  | skip h hqueue hfound ih => exact ⟨ih.distinct, ih.listed, ih.held, ih.bound⟩
  | pop h hqueue hfound ih => exact ⟨ih.distinct, ih.listed, ih.held, ih.bound⟩
  | ask h hask ih => exact ih.asked (ask_spec hask)

/-- What is still to be asked for are dependencies of the package. -/
theorem Asking.current (h : Asking candidates root pkg rest w) (hdep : dep ∈ rest) :
    ∃ c, found candidates pkg = some c ∧ dep ∈ c.deps := by
  induction h with
  | start h => cases hdep
  | skip h hqueue hfound ih => cases hdep
  | pop h hqueue hfound ih => exact ⟨_, hfound, hdep⟩
  | ask h hask ih => exact ih (List.mem_cons_of_mem _ hdep)

/-- **Everything wanted is asked for.** Where what is wanted comes to the queue, and an asking for a
dependency of what is wanted comes to something that stays, it comes to it for every dependency that
is not still to be asked for. -/
theorem Asking.settled {P : Walk → String × String → Dependency → Prop}
    {Q : Walk → String × String → Prop}
    (hstays : ∀ w w' n dep, Grows w w' → P w n dep → P w' n dep)
    (hstart : ∀ c n, candidates.find? (fun c => c.id = root) = some c → Q (startWalk c) n →
      n = (c.id, c.version))
    (hcomes : ∀ dep w w' n, Asked candidates dep w w' → Q w' n → Q w n ∨ n ∈ w'.queue)
    (hqueue : ∀ (w : Walk) queue n, Q { w with queue } n → Q w n)
    (hasks : ∀ pkg dep rest w w', Asking candidates root pkg (dep :: rest) w →
      Asked candidates dep w w' → Q w pkg → P w' pkg dep)
    (h : Asking candidates root pkg rest w) (n : String × String) (hwants : Q w n) :
    n ∈ w.queue ∨ ∀ c, found candidates n = some c → ∀ dep ∈ c.deps,
      P w n dep ∨ n = pkg ∧ dep ∈ rest := by
  induction h generalizing n with
  | start h =>
    rw [hstart _ n h hwants]
    exact .inl (List.mem_singleton.mpr rfl)
  | skip h hqueued hfound ih =>
    rename_i pkg next queue w
    rcases ih n (hqueue _ _ _ hwants) with hin | hdone
    · rw [hqueued] at hin
      rcases List.mem_cons.mp hin with rfl | hin
      · refine .inr fun c hc => ?_
        rw [hfound] at hc
        cases hc
      · exact .inl hin
    · refine .inr fun c hc dep hdep => .inl ?_
      rcases hdone c hc dep hdep with hP | ⟨-, hnil⟩
      · exact hstays _ _ _ _ (grows_queue w queue) hP
      · cases hnil
  | pop h hqueued hfound ih =>
    rename_i pkg next queue w c₀
    rcases ih n (hqueue _ _ _ hwants) with hin | hdone
    · rw [hqueued] at hin
      rcases List.mem_cons.mp hin with rfl | hin
      · refine .inr fun c hc dep hdep => .inr ⟨rfl, ?_⟩
        rw [hfound] at hc
        cases hc
        exact hdep
      · exact .inl hin
    · refine .inr fun c hc dep hdep => .inl ?_
      rcases hdone c hc dep hdep with hP | ⟨-, hnil⟩
      · exact hstays _ _ _ _ (grows_queue w queue) hP
      · cases hnil
  | ask h hask ih =>
    rename_i pkg dep₀ rest w w'
    have hasked := ask_spec hask
    rcases hcomes _ _ _ _ hasked hwants with hold | hin
    · rcases ih n hold with hin | hdone
      · exact .inl (hasked.queue n hin)
      · refine .inr fun c hc dep hdep => ?_
        rcases hdone c hc dep hdep with hP | ⟨rfl, hmem⟩
        · exact .inl (hstays _ _ _ _ hasked.grows hP)
        · rcases List.mem_cons.mp hmem with rfl | hmem
          · exact .inl (hasks _ _ _ _ _ h hasked hold)
          · exact .inr ⟨rfl, hmem⟩
    · exact .inl hin

/-- A package whose dependencies are asked for: the root, or one that is chosen, at its version. -/
def Wanted (candidates : List Candidate) (root : String) (w : Walk) (n : String × String) : Prop :=
  (∃ c, candidates.find? (fun c => c.id = root) = some c ∧ n = (c.id, c.version)) ∨
    ∃ ch, w.chosen n.1 = some ch ∧ ch.version = n.2

/-- What is wanted in the end is wanted already, or it comes to the queue. -/
theorem Asked.comes {w' : Walk} {n : String × String} (h : Asked candidates dep w w')
    (hwanted : ∃ ch, w'.chosen n.1 = some ch ∧ ch.version = n.2) :
    (∃ ch, w.chosen n.1 = some ch ∧ ch.version = n.2) ∨ n ∈ w'.queue := by
  rcases h with hsame | ⟨hinterface, hprovider, hheld⟩ | ⟨hbindings, hchosen, hnew⟩
  · exact .inl hwanted
  · exact .inl hwanted
  · rename_i c bindings by' req
    obtain ⟨ch, hch, hversion⟩ := hwanted
    by_cases hid : n.1 = c.id
    · right
      have hlast : n = (c.id, c.version) := by
        simp only [Walk.choose, hid, Function.update_self, Option.some.injEq] at hch
        rw [← hch] at hversion
        exact Prod.ext hid hversion.symm
      simp [Walk.choose, hlast]
    · left
      refine ⟨ch, ?_, hversion⟩
      simpa [Walk.choose, hid] using hch

end Invariants

/-! ### The fuel lasts -/

section Fuel

variable {candidates : List Candidate} {root dependent : String} {deps : List Dependency}
  {dep : Dependency} {w w' : Walk} {fuel : ℕ}

/-- What is still in the queue, and what could still come to it. -/
@[grind =]
def ahead (candidates : List Candidate) (w : Walk) : ℕ :=
  w.queue.length + (candidates.filter fun c => (w.chosen c.id).isNone).length

theorem Asked.ahead_le (h : Asked candidates dep w w') :
    ahead candidates w' ≤ ahead candidates w := by
  rcases h with hsame | ⟨hinterface, hprovider, hheld⟩ | ⟨hbindings, hchosen, hnew⟩
  · exact le_rfl
  · exact le_rfl
  · rename_i c bindings by' req
    -- the package that is chosen leaves those that are not
    have hless : (candidates.filter fun x =>
        ((({ w with bindings } : Walk).choose c by' req).chosen x.id).isNone).length <
        (candidates.filter fun x => (w.chosen x.id).isNone).length := by
      have hsub : (candidates.filter fun x =>
          ((({ w with bindings } : Walk).choose c by' req).chosen x.id).isNone).Sublist
          (candidates.filter fun x => (w.chosen x.id).isNone) := by
        refine List.monotone_filter_right candidates fun x hx => ?_
        by_cases hid : x.id = c.id
        · simp [Walk.choose, hid] at hx
        · simpa [Walk.choose, hid] using hx
      refine lt_of_le_of_ne hsub.length_le fun heq => ?_
      have hmem : c ∈ candidates.filter fun x => (w.chosen x.id).isNone := by
        simp [hchosen.mem, hnew]
      rw [← hsub.eq_of_length heq, List.mem_filter] at hmem
      simp [Walk.choose] at hmem
    simp only [ahead] at hless ⊢
    simp only [Walk.choose, List.length_append, List.length_singleton] at hless ⊢
    omega

theorem foldlM_ahead
    (h : deps.foldlM (fun w dep => ask candidates dependent dep w) w = .ok w') :
    ahead candidates w' ≤ ahead candidates w := by
  induction deps generalizing w with
  | nil =>
    cases h
    exact le_rfl
  | cons dep deps ih =>
    rw [List.foldlM_cons] at h
    rcases hask : ask candidates dependent dep w with e | next
    · rw [hask] at h
      cases h
    · rw [hask] at h
      exact (ih h).trans (ask_spec hask).ahead_le

theorem walk_isSome (h : ahead candidates w < fuel) : (walk candidates fuel w).isSome := by
  induction fuel generalizing w with
  | zero => omega
  | succ fuel ih =>
    rw [walk]
    split
    · rfl
    · rename_i pkg queue hqueue
      have hless : ahead candidates { w with queue } < fuel := by
        simp only [ahead, hqueue, List.length_cons] at h ⊢
        omega
      split
      · exact ih hless
      · split
        · rename_i w' hasks
          exact ih ((foldlM_ahead hasks).trans_lt hless)
        · rfl

/-- **The fuel lasts**: to resolve a root always comes to something. -/
theorem resolve_isSome (candidates : List Candidate) (root : String) :
    (resolve candidates root).isSome := by
  rw [resolve]
  split
  · rfl
  · rename_i c hc
    rw [Option.isSome_map]
    refine walk_isSome ?_
    have hle := List.length_filter_le (fun c : Candidate => ((startWalk c).chosen c.id).isNone)
      candidates
    simp only [ahead, startWalk, List.length_singleton] at hle ⊢
    omega

end Fuel

section Grown

variable {candidates : List Candidate} {root : String} {pkg : String × String}
  {rest : List Dependency} {w w' : Walk} {r : Resolution}

/-- A run grows from every state it comes to. -/
theorem foldlM_grows {dependent : String} {deps : List Dependency}
    (h : deps.foldlM (fun w dep => ask candidates dependent dep w) w = .ok w') : Grows w w' := by
  induction deps generalizing w with
  | nil =>
    cases h
    exact grows_queue _ _
  | cons dep deps ih =>
    rw [List.foldlM_cons] at h
    rcases hask : ask candidates dependent dep w with e | next
    · rw [hask] at h
      cases h
    · rw [hask] at h
      exact (ask_spec hask).grows.trans (ih h)

theorem walk_grows {fuel : ℕ} (h : walk candidates fuel w = some (.ok w')) : Grows w w' := by
  induction fuel generalizing w with
  | zero => cases h
  | succ fuel ih =>
    rw [walk] at h
    split at h
    · cases h
      exact grows_queue _ _
    · rename_i next queue hqueue
      split at h
      · exact (grows_queue w queue).trans (ih h)
      · split at h
        · rename_i w₁ hasks
          exact ((grows_queue w queue).trans (foldlM_grows hasks)).trans (ih h)
        · cases h

/-- **Every state of a run lies on the way** to what the resolution comes to. -/
theorem Asking.resolves (h : Asking candidates root pkg rest w)
    (hresolve : resolve candidates root = some (.ok r)) :
    ∃ fuel w₁ w₂, rest.foldlM (fun w dep => Deps.ask candidates pkg.1 dep w) w = .ok w₁ ∧
      Deps.walk candidates fuel w₁ = some (.ok w₂) ∧ r = ⟨w₂.order.reverse, w₂.bindings⟩ := by
  induction h with
  | start h =>
    rename_i c
    rw [resolve, h] at hresolve
    dsimp only at hresolve
    rcases hwalk : Deps.walk candidates (candidates.length + 2) (startWalk c) with _ | e | w
    · rw [hwalk] at hresolve
      cases hresolve
    · rw [hwalk] at hresolve
      cases hresolve
    · rw [hwalk] at hresolve
      cases hresolve
      exact ⟨_, _, w, rfl, hwalk, rfl⟩
  | skip h hqueue hfound ih =>
    obtain ⟨fuel, w₁, w₂, hasks, hwalk, hr⟩ := ih
    cases hasks
    rcases fuel with _ | fuel
    · cases hwalk
    · rw [Deps.walk, hqueue] at hwalk
      dsimp only at hwalk
      rw [hfound] at hwalk
      exact ⟨fuel, _, w₂, rfl, hwalk, hr⟩
  | pop h hqueue hfound ih =>
    obtain ⟨fuel, w₁, w₂, hasks, hwalk, hr⟩ := ih
    cases hasks
    rcases fuel with _ | fuel
    · cases hwalk
    · rw [Deps.walk, hqueue] at hwalk
      dsimp only at hwalk
      rw [hfound] at hwalk
      dsimp only at hwalk
      split at hwalk
      · rename_i w' hasks
        exact ⟨fuel, w', w₂, hasks, hwalk, hr⟩
      · cases hwalk
  | ask h hask ih =>
    obtain ⟨fuel, w₁, w₂, hasks, hwalk, hr⟩ := ih
    rw [List.foldlM_cons, hask] at hasks
    exact ⟨fuel, w₁, w₂, hasks, hwalk, hr⟩

/-- **A run goes on to its end** from every state it comes to, where the resolution comes to
something. -/
theorem Asking.ends (h : Asking candidates root pkg rest w)
    (hresolve : resolve candidates root = some (.ok r)) :
    ∃ last w₂, Asking candidates root last [] w₂ ∧ w₂.queue = [] ∧ Grows w w₂ ∧
      r = ⟨w₂.order.reverse, w₂.bindings⟩ := by
  obtain ⟨fuel, w₁, w₂, hasks, hwalk, rfl⟩ := h.resolves hresolve
  obtain ⟨last, hlast, hqueue⟩ := (h.foldlM hasks).walk hwalk
  exact ⟨last, w₂, hlast, hqueue, (foldlM_grows hasks).trans (walk_grows hwalk), rfl⟩

end Grown

end Deps

end LocalSpace
