import LocalSpace.Resolving

/-!
# What is resolved

A resolution lists packages in the reverse of the order in which they were found, and binds an
interface to its provider whatever version of it is there. So dependencies come before dependents
exactly where no package asks for one that was found before it (`ordered_iff`), and a resolution is
sound where no provider is offered of which the environment has a version that it does not stand in
for (`resolve_sound`).
-/

namespace LocalSpace

namespace Deps

open Library

/-! ### Dependencies before dependents -/

/-- What a package that is listed depends on: what its dependency names, or what provides it. -/
@[grind =]
def DependsOn (r : Resolution) (dep : Dependency) (id : String) : Prop :=
  if dep.interface then (dep.id, id) ∈ r.bindings else id = dep.id

/-- **Dependencies before dependents**: every package that is listed comes after those listed that it
depends on. -/
def Ordered (candidates : List Candidate) (r : Resolution) : Prop :=
  ∀ pkg ∈ r.install, ∀ c, found candidates pkg = some c → ∀ dep ∈ c.deps, ∀ id,
    DependsOn r dep id → id ∈ r.install.map Prod.fst → Precedes (r.install.map Prod.fst) id pkg.1

/-- What a dependency asks for, which is found among the candidates. -/
def wanted (candidates : List Candidate) (dep : Dependency) : Option String :=
  if dep.interface then (provider candidates dep.id).map Candidate.id else some dep.id

/-- A package that asks for one that is listed already is listed before it. -/
def AsksAhead (candidates : List Candidate) (pkg : String × String) (dep : Dependency) (w : Walk) :
    Prop :=
  ∀ id, wanted candidates dep = some id → pkg ∈ w.order → id ∈ w.order.map Prod.fst →
    Precedes (w.order.map Prod.fst) pkg.1 id

section Order

variable {candidates : List Candidate} {root : String} {pkg : String × String}
  {rest : List Dependency} {dep : Dependency} {w w' : Walk} {r : Resolution} {id : String}

theorem Asked.listed {n : String × String} (h : Asked candidates dep w w') (hn : n ∈ w'.order) :
    n ∈ w.order ∨ n ∈ w'.queue := by
  rcases h with hsame | ⟨hinterface, hprovider, hheld⟩ | ⟨hbindings, hchosen, hnew⟩
  · exact .inl hn
  · exact .inl hn
  · simp only [Walk.choose] at hn ⊢
    split at hn
    · exact .inl hn
    · exact (List.mem_append.mp hn).imp_right (List.mem_append_right _)

/-- **The list is in order exactly where** no package asks for one that was listed before it. -/
theorem ordered_iff (h : resolve candidates root = some (.ok r)) :
    Ordered candidates r ↔ ∀ pkg dep rest w, Asking candidates root pkg (dep :: rest) w →
      AsksAhead candidates pkg dep w := by
  constructor
  · intro hordered pkg dep rest w hrun id hid hpkg hlisted
    obtain ⟨c, hfound, hdep⟩ := hrun.current (List.mem_cons_self (l := rest))
    obtain ⟨-, w₁, -, hasks, -, -⟩ := hrun.resolves h
    rw [List.foldlM_cons] at hasks
    rcases hask : ask candidates pkg.1 dep w with e | w'
    · rw [hask] at hasks
      cases hasks
    · have hasked := ask_spec hask
      obtain ⟨_, w₂, hend, -, hgrows, rfl⟩ := (hrun.ask hask).ends h
      have hnodup := hend.kept.distinct
      obtain ⟨more, hmore⟩ := (hasked.grows.trans hgrows).order
      have hdepends : DependsOn ⟨w₂.order.reverse, w₂.bindings⟩ dep id := by
        have hmet := hasked.met hrun.kept
        unfold wanted at hid
        unfold Met at hmet
        unfold DependsOn
        split
        · rename_i hinterface
          rw [if_pos hinterface] at hid hmet
          rcases hmet with ⟨p, hp, hb⟩ | ⟨-, hnone⟩
          · rw [hp] at hid
            cases hid
            exact hgrows.bindings _ hb
          · rw [hnone] at hid
            cases hid
        · rename_i hversion
          rw [if_neg hversion] at hid
          cases hid
          rfl
      have hbefore := hordered pkg (by simp [hmore, hpkg]) c hfound dep hdep id hdepends (by
        rw [List.map_reverse, List.mem_reverse, hmore, List.map_append]
        exact List.mem_append_left _ hlisted)
      rw [List.map_reverse, precedes_reverse, hmore, List.map_append] at hbefore
      rw [hmore, List.map_append] at hnodup
      exact hbefore.of_append hnodup hlisted
  · intro hahead pkg hpkg c hfound dep hdep id hdepends hlisted
    obtain ⟨last, w, hrun, hqueue, rfl⟩ := resolve_run h
    rw [List.mem_reverse] at hpkg
    rw [List.map_reverse, List.mem_reverse] at hlisted
    rw [List.map_reverse, precedes_reverse]
    -- whatever a package that is listed asks for comes after it
    have hsettled := hrun.settled
      (P := fun w n dep => ∀ id, wanted candidates dep = some id →
        Leads (w.order.map Prod.fst) n.1 id)
      (Q := fun w n => n ∈ w.order)
      (fun w w' n dep hgrows hP id hid => by
        obtain ⟨more, hmore⟩ := hgrows.order
        rw [hmore, List.map_append]
        exact (hP id hid).append _)
      (fun c n _ hn => nomatch hn)
      (fun dep w w' n hasked hn => hasked.listed hn)
      (fun w queue n hn => hn)
      (fun pkg dep rest w w' hrun hasked hpkg id hid => by
        obtain ⟨more, hmore⟩ := hasked.grows.order
        rw [hmore, List.map_append]
        exact Leads.append ⟨List.mem_map_of_mem hpkg, hahead pkg dep rest w hrun id hid hpkg⟩ _)
      pkg hpkg
    rw [hqueue] at hsettled
    rcases hsettled with hnil | hsettled
    · cases hnil
    · rcases hsettled c hfound dep hdep with hP | ⟨-, hnil⟩
      · refine (hP id ?_).2 hlisted
        unfold DependsOn at hdepends
        unfold wanted
        split at hdepends
        · rename_i hinterface
          obtain ⟨p, hp, hid, -⟩ := hrun.kept.bound _ hdepends
          rw [if_pos hinterface, hp, Option.map_some, hid]
        · rename_i hversion
          rw [if_neg hversion, hdepends]
      · cases hnil

end Order

section Shared

/-- A package that is offered, with what it needs of others, at any version. -/
def offered (id : String) (needs : List String) : Candidate :=
  ⟨id, "1.0.0", [], needs.map fun n => ⟨n, some "*", false, false⟩, false⟩

/-- A package needs one, and another that needs the first. -/
def shared : List Candidate :=
  [offered "app" ["base", "mid"], offered "mid" ["base"], offered "base" []]

/-- **A package comes before what it depends on**, where that is needed by the root as well, and no
package depends on itself through others. -/
theorem shared_before :
    resolve shared "app" = some (.ok ⟨[("mid", "1.0.0"), ("base", "1.0.0")], []⟩) ∧
    ¬Ordered shared ⟨[("mid", "1.0.0"), ("base", "1.0.0")], []⟩ ∧
    ∀ c ∈ shared, ∀ dep ∈ c.deps, dep.interface = false ∧
      ["base", "mid", "app"].idxOf dep.id < ["base", "mid", "app"].idxOf c.id := by
  refine ⟨by decide +kernel, fun hordered => ?_, by decide +kernel⟩
  have hbefore := hordered ("mid", "1.0.0") (by simp) (offered "mid" ["base"]) (by decide +kernel)
    ⟨"base", some "*", false, false⟩ (by decide +kernel) "base" (by simp [DependsOn]) (by simp)
  revert hbefore
  unfold Precedes
  decide +kernel

/-- A package needs one that needs another. -/
def chained : List Candidate :=
  [offered "app" ["mid"], offered "mid" ["base"], offered "base" []]

theorem chained_ordered : Ordered chained ⟨[("base", "1.0.0"), ("mid", "1.0.0")], []⟩ ∧
    ∀ pkg dep rest w, Asking chained "app" pkg (dep :: rest) w → AsksAhead chained pkg dep w := by
  have hordered : Ordered chained ⟨[("base", "1.0.0"), ("mid", "1.0.0")], []⟩ := by
    intro pkg hpkg c hfound dep hdep id hdepends hlisted
    simp only [List.mem_cons, List.not_mem_nil, or_false] at hpkg
    rcases hpkg with rfl | rfl
    · have hc : found chained ("base", "1.0.0") = some (offered "base" []) := by decide +kernel
      rw [hc] at hfound
      cases hfound
      cases hdep
    · have hc : found chained ("mid", "1.0.0") = some (offered "mid" ["base"]) := by decide +kernel
      rw [hc] at hfound
      cases hfound
      have hbase : dep = ⟨"base", some "*", false, false⟩ := by simpa [offered] using hdep
      subst hbase
      have hid : id = "base" := by simpa [DependsOn] using hdepends
      subst hid
      simp [Precedes]
  exact ⟨hordered, (ordered_iff (by decide +kernel)).mp hordered⟩

end Shared

/-! ### Soundness -/

/-- What may be picked from, with one version of a package installed. -/
structure Candidates where
  list : List Candidate
  single : ∀ a ∈ list, ∀ b ∈ list, a.installed = true → b.installed = true → a.id = b.id →
    a.version = b.version

/-- The environment: what is installed, replaced by what is listed. -/
def environment (candidates : List Candidate) (install : List (String × String)) :
    List (String × String) :=
  (candidates.filter fun c => c.installed && !(install.map Prod.fst).contains c.id).map
    (fun c => (c.id, c.version)) ++ install

/-- A package at a version provides an interface. -/
def Provides (candidates : List Candidate) (pkg : String × String) (interface : String) : Prop :=
  ∃ c ∈ candidates, c.id = pkg.1 ∧ c.version = pkg.2 ∧ interface ∈ c.provides

/-- An environment satisfies a dependency: it has a version that meets it, or a provider. -/
@[grind =]
def Satisfied (candidates : List Candidate) (env : List (String × String)) (dep : Dependency) :
    Prop :=
  if dep.interface then ∃ pkg ∈ env, Provides candidates pkg dep.id
  else ∃ v, (dep.id, v) ∈ env ∧ versionSatisfies (requirement dep) v = true

/-- What a root pulls in: itself, what is listed, and what a version dependency of these finds in the
environment. -/
inductive Pulled (candidates : List Candidate) (root : String) (r : Resolution) : Candidate → Prop
  | root {c : Candidate} (h : candidates.find? (fun c => c.id = root) = some c) :
    Pulled candidates root r c
  | listed {pkg : String × String} {c : Candidate} (hpkg : pkg ∈ r.install)
    (hfound : found candidates pkg = some c) : Pulled candidates root r c
  | named {d c : Candidate} {dep : Dependency} {v : String} (h : Pulled candidates root r d)
    (hdep : dep ∈ d.deps) (hversion : dep.interface = false)
    (henv : (dep.id, v) ∈ environment candidates r.install)
    (hmeets : versionSatisfies (requirement dep) v = true)
    (hfound : found candidates (dep.id, v) = some c) : Pulled candidates root r c

/-- **A resolution is sound**: one version of a package, which every version dependency of what is
pulled in is satisfied by; every interface bound to a package whose version provides it; and what was
satisfied of those installed before is satisfied. -/
structure Sound (candidates : List Candidate) (root : String) (r : Resolution) : Prop where
  single : ∀ id v v', (id, v) ∈ environment candidates r.install →
    (id, v') ∈ environment candidates r.install → v = v'
  versions : ∀ d, Pulled candidates root r d → ∀ dep ∈ d.deps, dep.interface = false →
    dep.optional = false → Satisfied candidates (environment candidates r.install) dep
  interfaces : ∀ d, Pulled candidates root r d → ∀ dep ∈ d.deps, dep.interface = true →
    dep.optional = false → ∃ id v, (dep.id, id) ∈ r.bindings ∧
      (id, v) ∈ environment candidates r.install ∧ Provides candidates (id, v) dep.id
  kept : ∀ q ∈ candidates, q.installed = true → ∀ dep ∈ q.deps,
    Satisfied candidates (environment candidates []) dep →
      Satisfied candidates (environment candidates r.install) dep

/-- A version meets what is required of one that is installed by those installed. -/
def Meets (candidates : List Candidate) (o : Candidate) (v : String) : Prop :=
  ∀ q ∈ candidates, q.installed = true → ∀ dep ∈ q.deps, dep.interface = false → dep.id = o.id →
    versionSatisfies (requirement dep) o.version = true →
      versionSatisfies (requirement dep) v = true

/-- A version stands in for one that is installed: it meets what that is required for, and provides
what that provides of the interfaces that are needed of it. -/
structure StandsIn (candidates : List Candidate) (needed : Candidate → String → Prop) (o : Candidate)
    (v : String) : Prop where
  meets : Meets candidates o v
  provides : ∀ interface, needed o interface → Provides candidates (o.id, o.version) interface →
    Provides candidates (o.id, v) interface

theorem StandsIn.refl (candidates : List Candidate) (needed : Candidate → String → Prop)
    (o : Candidate) : StandsIn candidates needed o o.version :=
  ⟨fun _ _ _ _ _ _ _ h => h, fun _ _ h => h⟩

/-- A run asks for an interface, which is not optional, and its provider is of the package. -/
def AskedOf (candidates : List Candidate) (root : String) (o : Candidate) (interface : String) :
    Prop :=
  ∃ pkg dep rest w p, Asking candidates root pkg (dep :: rest) w ∧ dep.interface = true ∧
    dep.optional = false ∧ dep.id = interface ∧ provider candidates interface = some p ∧ p.id = o.id

/-- A run asks for an interface of the package, or a package that is installed requires it. -/
def NeededOf (candidates : List Candidate) (root : String) (o : Candidate) (interface : String) :
    Prop :=
  AskedOf candidates root o interface ∨ ∃ q ∈ candidates, q.installed = true ∧ ∃ dep ∈ q.deps,
    dep.interface = true ∧ dep.id = interface

/-- Where an interface dependency would have an offered provider: where its package is chosen, the
version chosen provides the interface if that is needed; where it is not, the provider does for
installed versions what is asked of it. -/
structure Heeds (candidates : List Candidate) (does : Candidate → String → Prop) (dep : Dependency)
    (w : Walk) : Prop where
  chosen : ∀ p, dep.interface = true → provider candidates dep.id = some p → p.installed = false →
    dep.optional = false → ∀ ch, w.chosen p.id = some ch →
      Provides candidates (p.id, ch.version) dep.id
  installed : ∀ p, dep.interface = true → provider candidates dep.id = some p →
    p.installed = false → w.chosen p.id = none →
      ∀ o ∈ candidates, o.installed = true → o.id = p.id → does o p.version

section Soundness

variable {candidates : List Candidate} {root id v : String} {pkg : String × String}
  {rest : List Dependency} {dep : Dependency} {w w' : Walk} {r : Resolution} {c d o p : Candidate}
  {install : List (String × String)}

theorem mem_environment : (id, v) ∈ environment candidates install ↔
    (∃ c ∈ candidates, c.installed = true ∧ c.id = id ∧ c.version = v ∧
      id ∉ install.map Prod.fst) ∨ (id, v) ∈ install := by
  simp only [environment, List.mem_append, List.mem_map, List.mem_filter, Bool.and_eq_true,
    Bool.not_eq_true', List.contains_eq_mem, decide_eq_false_iff_not, Prod.mk.injEq]
  constructor
  · rintro (⟨c, ⟨hc, hinst, hnot⟩, rfl, rfl⟩ | h)
    · exact .inl ⟨c, hc, hinst, rfl, rfl, by simpa using hnot⟩
    · exact .inr h
  · rintro (⟨c, hc, hinst, rfl, rfl, hnot⟩ | h)
    · exact .inl ⟨c, ⟨hc, hinst, by simpa using hnot⟩, rfl, rfl⟩
    · exact .inr h

/-- What is chosen is in the environment, at its version. -/
theorem Kept.mem_environment (hkept : Kept candidates w) {ch : Choice}
    (h : w.chosen id = some ch) : (id, ch.version) ∈ environment candidates w.order.reverse := by
  obtain ⟨x, hx, hid, hversion, hplace⟩ := hkept.held id ch h
  rw [Deps.mem_environment]
  rcases hinst : x.installed with _ | _
  · simp only [hinst, Bool.false_eq_true, if_false] at hplace
    exact .inr (List.mem_reverse.mpr hplace)
  · simp only [hinst, if_true] at hplace
    refine .inl ⟨x, hx, hinst, hid, hversion, ?_⟩
    rwa [List.map_reverse, List.mem_reverse]

/-- What is in the environment is a candidate. -/
theorem Kept.candidate (hkept : Kept candidates w)
    (h : (id, v) ∈ environment candidates w.order.reverse) :
    ∃ x ∈ candidates, x.id = id ∧ x.version = v := by
  rcases Deps.mem_environment.mp h with ⟨c, hc, -, hid, hversion, -⟩ | hlisted
  · exact ⟨c, hc, hid, hversion⟩
  · obtain ⟨ch, hch, hversion⟩ := hkept.listed _ (List.mem_reverse.mp hlisted)
    obtain ⟨x, hx, hid, hversion', -⟩ := hkept.held _ _ hch
    exact ⟨x, hx, hid, hversion'.trans hversion⟩

/-- **One version of a package**, in every state of a run. -/
theorem Kept.single {cands : Candidates} (hkept : Kept cands.list w) (id v v' : String)
    (h : (id, v) ∈ environment cands.list w.order.reverse)
    (h' : (id, v') ∈ environment cands.list w.order.reverse) : v = v' := by
  rcases Deps.mem_environment.mp h with ⟨c, hc, hinst, hid, rfl, hnot⟩ | hlisted
  · rcases Deps.mem_environment.mp h' with ⟨c', hc', hinst', hid', rfl, -⟩ | hlisted'
    · exact cands.single c hc c' hc' hinst hinst' (hid.trans hid'.symm)
    · exact absurd (List.mem_map_of_mem (f := Prod.fst) hlisted') hnot
  · rcases Deps.mem_environment.mp h' with ⟨c', hc', hinst', hid', rfl, hnot⟩ | hlisted'
    · exact absurd (List.mem_map_of_mem (f := Prod.fst) hlisted) hnot
    · obtain ⟨ch, hch, hversion⟩ := hkept.listed _ (List.mem_reverse.mp hlisted)
      obtain ⟨ch', hch', hversion'⟩ := hkept.listed _ (List.mem_reverse.mp hlisted')
      rw [hch] at hch'
      cases hch'
      exact hversion.symm.trans hversion'

theorem found_root (h : candidates.find? (fun c => c.id = root) = some c) :
    found candidates (c.id, c.version) = some c := by
  obtain ⟨hroot, before, after, rfl, hbefore⟩ := List.find?_eq_some_iff_append.mp h
  refine List.find?_eq_some_iff_append.mpr ⟨by simp, before, after, rfl, fun x hx => ?_⟩
  have hother := hbefore x hx
  simp only [Bool.not_eq_true', decide_eq_false_iff_not, decide_eq_true_eq] at hroot hother
  simp [hroot, hother]

/-- What provides an interface that is offered and not chosen yet is chosen. -/
theorem Asked.chooses (h : Asked candidates dep w w') (hkept : Kept candidates w)
    (hinterface : dep.interface = true) (hprovider : provider candidates dep.id = some p)
    (hoffered : p.installed = false) (hnew : w.chosen p.id = none) :
    ∃ ch, w'.chosen p.id = some ch ∧ ch.version = p.version := by
  rcases h with hsame | ⟨-, hprovider', hheld⟩ | ⟨hbindings, hchosen, -⟩
  · rcases hsame with ⟨-, hprovider', hb, hid⟩ | ⟨-, -, hnone⟩ | ⟨hversion, -, -⟩ |
      ⟨hversion, -, -⟩
    · obtain ⟨p', hp', -, hheld⟩ := hkept.bound _ hb
      rw [hid, hprovider] at hp'
      cases hp'
      rw [hoffered, hnew] at hheld
      simp at hheld
    · rw [hprovider] at hnone
      cases hnone
    · rw [hinterface] at hversion
      cases hversion
    · rw [hinterface] at hversion
      cases hversion
  · rw [hprovider] at hprovider'
    cases hprovider'
    rw [hoffered, hnew] at hheld
    simp at hheld
  · rcases hchosen with ⟨-, hprovider', -⟩ | ⟨hversion, -, -⟩
    · rw [hprovider] at hprovider'
      cases hprovider'
      exact ⟨_, Function.update_self _ _ _, rfl⟩
    · rw [hinterface] at hversion
      cases hversion

theorem Provides.of_provider (h : provider candidates dep.id = some p) :
    Provides candidates (p.id, p.version) dep.id := by
  obtain ⟨hmem, hprovides, -⟩ := provider_spec h
  exact ⟨p, hmem, rfl, rfl, hprovides⟩

/-- **Everything a root wants is asked for**: what an asking comes to, and what stays, holds in the end
of every dependency of what is wanted. -/
theorem Asking.comesTo {P : Walk → Dependency → Prop}
    (hstays : ∀ w w' dep, Grows w w' → P w dep → P w' dep)
    (hasks : ∀ pkg dep rest w w', Asking candidates root pkg (dep :: rest) w →
      Asked candidates dep w w' → P w' dep)
    (h : Asking candidates root pkg [] w) (hqueue : w.queue = []) (n : String × String)
    (hwanted : Wanted candidates root w n) (hfound : found candidates n = some c)
    (hdep : dep ∈ c.deps) : P w dep := by
  have hsettled := h.settled (P := fun w _ dep => P w dep) (Q := Wanted candidates root)
    (fun w w' n dep hgrows hP => hstays w w' dep hgrows hP)
    (fun c n hc hn => by
      rcases hn with ⟨c', hc', rfl⟩ | ⟨ch, hch, -⟩
      · rw [hc] at hc'
        cases hc'
        rfl
      · cases hch)
    (fun dep w w' n hasked hn => by
      rcases hn with hroot | hchosen
      · exact .inl (.inl hroot)
      · exact (hasked.comes hchosen).imp_left .inr)
    (fun w queue n hn => hn)
    (fun pkg dep rest w w' hrun hasked _ => hasks pkg dep rest w w' hrun hasked)
    n hwanted
  rw [hqueue] at hsettled
  rcases hsettled with hnil | hsettled
  · cases hnil
  · rcases hsettled c hfound dep hdep with hP | ⟨-, hnil⟩
    · exact hP
    · cases hnil

theorem Asking.met (h : Asking candidates root pkg [] w) (hqueue : w.queue = []) (n : String × String)
    (hwanted : Wanted candidates root w n) (hfound : found candidates n = some c)
    (hdep : dep ∈ c.deps) : Met candidates w dep :=
  h.comesTo (fun _ _ _ hgrows hmet => hmet.grows hgrows)
    (fun _ _ _ _ _ hrun hasked => hasked.met hrun.kept) hqueue n hwanted hfound hdep

/-- What is pulled in is wanted. -/
theorem Pulled.wanted {cands : Candidates} (hrun : Asking cands.list root pkg [] w)
    (hqueue : w.queue = []) (h : Pulled cands.list root ⟨w.order.reverse, w.bindings⟩ c) :
    ∃ n, Wanted cands.list root w n ∧ found cands.list n = some c := by
  have hkept := hrun.kept
  induction h with
  | root h => exact ⟨_, .inl ⟨_, h, rfl⟩, found_root h⟩
  | listed hpkg hfound =>
    exact ⟨_, .inr (hkept.listed _ (List.mem_reverse.mp hpkg)), hfound⟩
  | named h hdep hversion henv hmeets hfound ih =>
    obtain ⟨n, hwanted, hd⟩ := ih
    have hmet := hrun.met hqueue n hwanted hd hdep
    unfold Met at hmet
    rw [if_neg (by simp [hversion])] at hmet
    rcases hmet with ⟨ch, hch, -⟩ | ⟨-, hnone⟩
    · exact ⟨_, .inr ⟨ch, hch, hkept.single _ _ _ (hkept.mem_environment hch) henv⟩, hfound⟩
    · obtain ⟨x, hx, hid, rfl⟩ := hkept.candidate henv
      rw [pick_none hnone hx hid] at hmeets
      cases hmeets

/-- **What is chosen stands in** for what is installed of it, where every asking sees to that. -/
theorem Asking.stands {cands : Candidates} {needed : Candidate → String → Prop}
    (hheeds : ∀ pkg dep rest w, Asking cands.list root pkg (dep :: rest) w →
      Heeds cands.list (StandsIn cands.list needed) dep w)
    (h : Asking cands.list root pkg rest w) : ∀ id ch, w.chosen id = some ch →
      ∀ o ∈ cands.list, o.installed = true → o.id = id →
        StandsIn cands.list needed o ch.version := by
  induction h with
  | start h => exact fun id ch hch => nomatch hch
  | skip h hqueue hfound ih => exact ih
  | pop h hqueue hfound ih => exact ih
  | ask h hask ih =>
    rcases ask_spec hask with hsame | ⟨hinterface, hprovider, hheld⟩ | ⟨hbindings, hchosen, hnew⟩
    · exact ih
    · exact ih
    · rename_i c bindings by' req
      intro id ch hch o ho hinst hid
      by_cases hself : id = c.id
      · subst hself
        obtain rfl : ch = ⟨c.version, by', req⟩ := by
          simp only [Walk.choose, Function.update_self, Option.some.injEq] at hch
          exact hch.symm
        rcases hchosen with ⟨hinterface, hprovider, hoffered⟩ | ⟨hversion, hpick, hinstalled⟩
        · exact (hheeds _ _ _ _ h).installed c hinterface hprovider hoffered hnew o ho hinst hid
        · -- what is picked is itself installed, as it is preferred
          obtain ⟨hc, hcid, -, hgreatest⟩ := pick_spec hpick
          have hmeets := hinstalled o ho hinst (hid.trans hcid)
          have hcinst := installed_of_rank (hgreatest o ho (hid.trans hcid) hmeets) hinst
          have hversion := cands.single o ho c hc hinst hcinst hid
          dsimp only
          rw [← hversion]
          exact StandsIn.refl _ _ _
      · refine ih id ch ?_ o ho hinst hid
        simpa [Walk.choose, hself] using hch

/-- **Everything installed** is stood in for in the environment. -/
theorem installed_stands {cands : Candidates} {needed : Candidate → String → Prop}
    (hkept : Kept cands.list w)
    (hstands : ∀ id ch, w.chosen id = some ch → ∀ o ∈ cands.list, o.installed = true → o.id = id →
      StandsIn cands.list needed o ch.version) (ho : o ∈ cands.list) (hinst : o.installed = true) :
    ∃ v, (o.id, v) ∈ environment cands.list w.order.reverse ∧
      StandsIn cands.list needed o v := by
  by_cases hlisted : o.id ∈ w.order.map Prod.fst
  · obtain ⟨pkg, hpkg, hid⟩ := List.mem_map.mp hlisted
    obtain ⟨ch, hch, -⟩ := hkept.listed pkg hpkg
    rw [hid] at hch
    exact ⟨ch.version, hkept.mem_environment hch, hstands _ ch hch o ho hinst rfl⟩
  · refine ⟨o.version, Deps.mem_environment.mpr (.inl ⟨o, ho, hinst, rfl, rfl, ?_⟩), .refl _ _ _⟩
    rwa [List.map_reverse, List.mem_reverse]

/-- **An interface that is needed has a provider** that is installed, and is asked for of it, or is
chosen at a version that provides it, where every asking sees to that. -/
theorem Asking.provided {does : Candidate → String → Prop}
    (hheeds : ∀ pkg dep rest w, Asking candidates root pkg (dep :: rest) w →
      Heeds candidates does dep w)
    (h : Asking candidates root pkg [] w) (hqueue : w.queue = []) (n : String × String)
    (hwanted : Wanted candidates root w n) (hfound : found candidates n = some c)
    (hdep : dep ∈ c.deps) (hinterface : dep.interface = true) (hneeded : dep.optional = false) :
    ∃ p, provider candidates dep.id = some p ∧ (dep.id, p.id) ∈ w.bindings ∧
      (p.installed = true ∧ AskedOf candidates root p dep.id ∨
        ∃ ch, w.chosen p.id = some ch ∧ Provides candidates (p.id, ch.version) dep.id) := by
  refine h.comesTo
    (P := fun w dep => dep.interface = true → dep.optional = false →
      ∃ p, provider candidates dep.id = some p ∧ (dep.id, p.id) ∈ w.bindings ∧
        (p.installed = true ∧ AskedOf candidates root p dep.id ∨
          ∃ ch, w.chosen p.id = some ch ∧ Provides candidates (p.id, ch.version) dep.id))
    ?_ ?_ hqueue n hwanted hfound hdep hinterface hneeded
  · intro w w' dep hgrows hP hinterface hneeded
    obtain ⟨p, hp, hb, hplace⟩ := hP hinterface hneeded
    refine ⟨p, hp, hgrows.bindings _ hb, hplace.imp_right ?_⟩
    rintro ⟨ch, hch, hprovides⟩
    exact ⟨ch, hgrows.chosen _ _ hch, hprovides⟩
  · intro pkg dep rest w w' hrun hasked hinterface hneeded
    have hmet := hasked.met hrun.kept
    unfold Met at hmet
    rw [if_pos hinterface] at hmet
    rcases hmet with ⟨p, hp, hb⟩ | ⟨hoptional, -⟩
    · refine ⟨p, hp, hb, ?_⟩
      rcases hoffered : p.installed with _ | _
      · right
        rcases hch : w.chosen p.id with _ | ch
        · obtain ⟨ch, hch, hversion⟩ := hasked.chooses hrun.kept hinterface hp hoffered hch
          exact ⟨ch, hch, hversion ▸ .of_provider hp⟩
        · exact ⟨ch, hasked.grows.chosen _ _ hch,
            (hheeds _ _ _ _ hrun).chosen p hinterface hp hoffered hneeded ch hch⟩
      · exact .inl ⟨rfl, pkg, dep, rest, w, p, hrun, hinterface, hneeded, rfl, hp, rfl⟩
    · rw [hneeded] at hoptional
      cases hoptional

/-- **A resolution is sound where every asking heeds** what is chosen and installed. -/
theorem sound_of_heeds {cands : Candidates} (h : resolve cands.list root = some (.ok r))
    (hheeds : ∀ pkg dep rest w, Asking cands.list root pkg (dep :: rest) w →
      Heeds cands.list (StandsIn cands.list (NeededOf cands.list root)) dep w) :
    Sound cands.list root r := by
  obtain ⟨last, w, hrun, hqueue, rfl⟩ := resolve_run h
  have hkept := hrun.kept
  have hstands := hrun.stands hheeds
  refine ⟨hkept.single, ?_, ?_, ?_⟩
  · intro d hd dep hdep hversion hneeded
    obtain ⟨n, hwanted, hfound⟩ := hd.wanted hrun hqueue
    have hmet := hrun.met hqueue n hwanted hfound hdep
    unfold Met at hmet
    unfold Satisfied
    rw [if_neg (by simp [hversion])] at hmet ⊢
    rcases hmet with ⟨ch, hch, hmeets⟩ | ⟨hoptional, -⟩
    · exact ⟨ch.version, hkept.mem_environment hch, hmeets⟩
    · rw [hneeded] at hoptional
      cases hoptional
  · intro d hd dep hdep hinterface hneeded
    obtain ⟨n, hwanted, hfound⟩ := hd.wanted hrun hqueue
    obtain ⟨p, hp, hb, ⟨hinst, hasked⟩ | ⟨ch, hch, hprovides⟩⟩ :=
      hrun.provided hheeds hqueue n hwanted hfound hdep hinterface hneeded
    · obtain ⟨v, henv, hv⟩ := installed_stands hkept hstands (provider_spec hp).1 hinst
      exact ⟨p.id, v, hb, henv, hv.provides _ (.inl hasked) (.of_provider hp)⟩
    · exact ⟨p.id, ch.version, hb, hkept.mem_environment hch, hprovides⟩
  · intro q hq hinst dep hdep hbefore
    unfold Satisfied at hbefore ⊢
    split at hbefore
    · rename_i hinterface
      rw [if_pos hinterface]
      obtain ⟨⟨id, v⟩, henv, hprovides⟩ := hbefore
      rcases Deps.mem_environment.mp henv with ⟨o, ho, hoinst, rfl, rfl, -⟩ | hnil
      · obtain ⟨v, henv, hv⟩ := installed_stands hkept hstands ho hoinst
        exact ⟨_, henv, hv.provides _ (.inr ⟨q, hq, hinst, dep, hdep, hinterface, rfl⟩) hprovides⟩
      · cases hnil
    · rename_i hversion
      rw [if_neg hversion]
      obtain ⟨v, henv, hmeets⟩ := hbefore
      rcases Deps.mem_environment.mp henv with ⟨o, ho, hoinst, hid, rfl, -⟩ | hnil
      · obtain ⟨v, henv, hv⟩ := installed_stands hkept hstands ho hoinst
        rw [hid] at henv
        exact ⟨v, henv, hv.meets q hq hinst dep hdep (by simpa using hversion) hid.symm hmeets⟩
      · cases hnil

/-- What a run comes to ask for is pulled in. -/
theorem Asking.pulled (h : Asking candidates root pkg rest w)
    (hresolve : resolve candidates root = some (.ok r)) (n : String × String)
    (hn : n = pkg ∨ n ∈ w.queue) (hfound : found candidates n = some c) :
    Pulled candidates root r c := by
  induction h generalizing n c with
  | start h =>
    rename_i c₀
    have hself : n = (c₀.id, c₀.version) := by simpa [startWalk] using hn
    rw [hself, found_root h] at hfound
    cases hfound
    exact .root h
  | skip h hqueue hnone ih =>
    refine ih n (.inr ?_) hfound
    rw [hqueue]
    exact List.mem_cons.mpr hn
  | pop h hqueue hnext ih =>
    refine ih n (.inr ?_) hfound
    rw [hqueue]
    exact List.mem_cons.mpr hn
  | ask h hask ih =>
    rename_i pkg dep rest w w'
    rcases hn with rfl | hn
    · exact ih n (.inl rfl) hfound
    · obtain ⟨last, w₂, hend, -, hgrows, rfl⟩ := (h.ask hask).ends hresolve
      rcases ask_spec hask with hsame | ⟨hinterface, hprovider, hheld⟩ | ⟨hbindings, hchosen, hnew⟩
      · exact ih n (.inr hn) hfound
      · exact ih n (.inr hn) hfound
      · rename_i x bindings by' req
        rcases List.mem_append.mp hn with hn | hn
        · exact ih n (.inr hn) hfound
        · obtain rfl : n = (x.id, x.version) := List.mem_singleton.mp hn
          rcases hinst : x.installed with _ | _
          · obtain ⟨more, hmore⟩ := hgrows.order
            refine .listed (List.mem_reverse.mpr ?_) hfound
            rw [hmore]
            simp [Walk.choose, hinst]
          · rcases hchosen with ⟨-, -, hoffered⟩ | ⟨hversion, hpick, -⟩
            · rw [hinst] at hoffered
              cases hoffered
            · obtain ⟨-, hid, hmeets, -⟩ := pick_spec hpick
              obtain ⟨d, hd, hdep⟩ := h.current (List.mem_cons_self (l := rest))
              have hch := hgrows.chosen x.id ⟨x.version, by', req⟩ (Function.update_self _ _ _)
              have henv := hend.kept.mem_environment hch
              rw [hid] at henv hfound
              exact .named (ih pkg (.inl rfl) hd) hdep hversion henv hmeets hfound

/-- Where the resolution is sound, what the environment has of a package that is installed stands in
for it. -/
theorem stands_of_sound {cands : Candidates} (h : resolve cands.list root = some (.ok r))
    (hsound : Sound cands.list root r) (ho : o ∈ cands.list) (hinst : o.installed = true)
    (henv : (o.id, v) ∈ environment cands.list r.install) :
    StandsIn cands.list (AskedOf cands.list root) o v := by
  constructor
  · intro q hq hqinst dep hdep hversion hon hmeets
    have hbefore : Satisfied cands.list (environment cands.list []) dep := by
      unfold Satisfied
      rw [if_neg (by simp [hversion])]
      refine ⟨o.version, Deps.mem_environment.mpr (.inl ⟨o, ho, hinst, hon.symm, rfl, ?_⟩), hmeets⟩
      simp
    have hafter := hsound.kept q hq hqinst dep hdep hbefore
    unfold Satisfied at hafter
    rw [if_neg (by simp [hversion]), hon] at hafter
    obtain ⟨v', henv', hmeets'⟩ := hafter
    rwa [hsound.single _ _ _ henv henv']
  · rintro _ ⟨pkg, dep, rest, w, p, hrun, hinterface, hneeded, rfl, hp, hid⟩ -
    obtain ⟨d, hd, hdep⟩ := hrun.current (List.mem_cons_self (l := rest))
    obtain ⟨id, v', hb, henv', hprovides⟩ := hsound.interfaces d
      (hrun.pulled h pkg (.inl rfl) hd) dep hdep hinterface hneeded
    obtain ⟨last, w₂, hend, -, -, rfl⟩ := hrun.ends h
    obtain ⟨p', hp', hid', -⟩ := hend.kept.bound _ hb
    rw [hp] at hp'
    cases hp'
    have hsame : id = o.id := hid'.symm.trans hid
    subst hsame
    rw [hsound.single _ _ _ henv henv']
    exact hprovides

/-- **Every asking heeds** what is chosen, and what is required and asked of what is installed, where
the resolution is sound. -/
theorem heeds_of_sound {cands : Candidates} (h : resolve cands.list root = some (.ok r))
    (hsound : Sound cands.list root r) (hrun : Asking cands.list root pkg (dep :: rest) w) :
    Heeds cands.list (StandsIn cands.list (AskedOf cands.list root)) dep w := by
  obtain ⟨-, w₁, -, hasks, -, -⟩ := hrun.resolves h
  rw [List.foldlM_cons] at hasks
  rcases hask : ask cands.list pkg.1 dep w with e | w'
  · rw [hask] at hasks
    cases hasks
  · have hasked := ask_spec hask
    obtain ⟨last, w₂, hend, hqueue, hgrows, rfl⟩ := (hrun.ask hask).ends h
    constructor
    · intro p hinterface hp hoffered hneeded ch hch
      obtain ⟨d, hd, hdep⟩ := hrun.current (List.mem_cons_self (l := rest))
      obtain ⟨id, v, hb, henv, hprovides⟩ := hsound.interfaces d
        (hrun.pulled h pkg (.inl rfl) hd) dep hdep hinterface hneeded
      obtain ⟨p', hp', hid, -⟩ := hend.kept.bound _ hb
      rw [hp] at hp'
      cases hp'
      have hfinal := hend.kept.mem_environment (hgrows.chosen _ _ (hasked.grows.chosen _ _ hch))
      rw [hid] at hfinal ⊢
      rw [hsound.single _ _ _ hfinal henv]
      exact hprovides
    · intro p hinterface hp hoffered hnew o ho hinst hid
      obtain ⟨ch, hch, hpv⟩ := hasked.chooses hrun.kept hinterface hp hoffered hnew
      have hfinal := hend.kept.mem_environment (hgrows.chosen _ _ hch)
      rw [hpv, ← hid] at hfinal
      exact stands_of_sound h hsound ho hinst hfinal

/-- **Resolution is sound** where no provider is taken of which the environment has a version that it
does not stand in for: where a provider is offered, its package is not chosen at a version that does
not provide what is needed, nor installed at one that meets or provides more of what is needed. And it
is sound only there, but for the interfaces that those installed require, which another package may
still provide. -/
theorem resolve_sound {cands : Candidates} (h : resolve cands.list root = some (.ok r)) :
    ((∀ pkg dep rest w, Asking cands.list root pkg (dep :: rest) w →
        Heeds cands.list (StandsIn cands.list (NeededOf cands.list root)) dep w) →
      Sound cands.list root r) ∧
    (Sound cands.list root r → ∀ pkg dep rest w, Asking cands.list root pkg (dep :: rest) w →
      Heeds cands.list (StandsIn cands.list (AskedOf cands.list root)) dep w) :=
  ⟨sound_of_heeds h, fun hsound _ _ _ _ hrun => heeds_of_sound h hsound hrun⟩

/-- Where a provider is offered, and every version of its package provides what it does and none is
installed, every asking heeds what is there. -/
theorem Asking.heeds {does : Candidate → String → Prop}
    (hsole : ∀ c ∈ candidates, ∀ dep ∈ c.deps, dep.interface = true →
      ∀ p ∈ provider candidates dep.id, p.installed = false →
        ∀ o ∈ candidates, o.id = p.id → o.installed = false ∧ dep.id ∈ o.provides)
    (h : Asking candidates root pkg (dep :: rest) w) : Heeds candidates does dep w := by
  obtain ⟨c, hfound, hdep⟩ := h.current (List.mem_cons_self (l := rest))
  have hall := hsole c (List.mem_of_find?_eq_some hfound) dep hdep
  constructor
  · intro p hinterface hp hoffered _ ch hch
    obtain ⟨x, hx, hid, hversion, -⟩ := h.kept.held _ _ hch
    exact ⟨x, hx, hid, hversion, (hall hinterface p hp hoffered x hx hid).2⟩
  · intro p hinterface hp hoffered _ o ho hinst hid
    rw [(hall hinterface p hp hoffered o ho hid).1] at hinst
    cases hinst

end Soundness

section Drawing

/-- A package that needs an interface, with what it needs of others. -/
def drawing (needs : List Dependency) : Candidate :=
  ⟨"app", "1.0.0", [], needs ++ [⟨"draw", none, false, true⟩], false⟩

/-- A version of a package that may be drawn with. -/
def pen (version : String) (provides : List String) (installed : Bool) : Candidate :=
  ⟨"pen", version, provides, [], installed⟩

/-- A pen is needed at a version that nothing can be drawn with. -/
def unfit : Candidates where
  list := [drawing [⟨"pen", some "^1.0.0", false, false⟩], pen "1.0.0" [] false,
    pen "2.0.0" ["draw"] false]
  single := by decide

/-- A pen is installed that nothing can be drawn with, and a package that needs it. -/
def worn : Candidates where
  list := [pen "1.0.0" [] true,
    ⟨"desk", "1.0.0", [], [⟨"pen", some "^1.0.0", false, false⟩], true⟩, drawing [],
    pen "2.0.0" ["draw"] false]
  single := by decide

/-- **An interface is bound to a package at a version that does not provide it**, where another
version does; and **a package is replaced** by a version that one installed cannot use. -/
theorem unsound :
    resolve unfit.list "app" = some (.ok ⟨[("pen", "1.0.0")], [("draw", "pen")]⟩) ∧
    ¬Sound unfit.list "app" ⟨[("pen", "1.0.0")], [("draw", "pen")]⟩ ∧
    resolve worn.list "app" = some (.ok ⟨[("pen", "2.0.0")], [("draw", "pen")]⟩) ∧
    ¬Sound worn.list "app" ⟨[("pen", "2.0.0")], [("draw", "pen")]⟩ := by
  refine ⟨by decide +kernel, fun hsound => ?_, by decide +kernel, fun hsound => ?_⟩
  · obtain ⟨id, v, hb, henv, hprovides⟩ := hsound.interfaces
      (drawing [⟨"pen", some "^1.0.0", false, false⟩]) (.root (by decide +kernel))
      ⟨"draw", none, false, true⟩ (by simp [drawing]) rfl rfl
    obtain rfl : id = "pen" := by simpa using hb
    obtain rfl : v = "1.0.0" := by
      simpa [environment, unfit, drawing, pen] using henv
    revert hprovides
    unfold Provides
    decide +kernel
  · have hkept := hsound.kept ⟨"desk", "1.0.0", [], [⟨"pen", some "^1.0.0", false, false⟩], true⟩
      (by simp [worn]) rfl ⟨"pen", some "^1.0.0", false, false⟩ (by simp)
    unfold Satisfied at hkept
    obtain ⟨v, henv, hmeets⟩ := hkept ⟨"1.0.0", by decide +kernel, by decide +kernel⟩
    obtain rfl : v = "2.0.0" := by
      simpa [environment, worn, drawing, pen] using henv
    revert hmeets
    decide +kernel

/-- A package of one version is needed, and something to draw with; two pens are offered. -/
def equipped : Candidates where
  list := [drawing [⟨"base", some "*", false, false⟩], offered "base" [],
    pen "1.0.0" ["draw"] false, pen "2.0.0" ["draw"] false]
  single := by decide

theorem equipped_sound : Sound equipped.list "app"
    ⟨[("pen", "2.0.0"), ("base", "1.0.0")], [("draw", "pen")]⟩ :=
  (resolve_sound (by decide +kernel)).1 fun _ _ _ _ hrun => hrun.heeds (by decide +kernel)

end Drawing

end Deps

end LocalSpace
