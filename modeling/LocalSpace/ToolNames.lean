import Mathlib.Data.String.Basic
import LocalSpace.Calls
import LocalSpace.Sample

/-!
# Which harness a tool's name reaches

The active set shows each tool under a harness; a call names the tool alone, and is resolved over
everything installed, in the order of ids and whether switched on or not (`Registry.route`). A call
reaches the harness its tool was shown under exactly where no package before it declares a tool by
that name (`Exposure.reached_iff`).
-/

namespace LocalSpace

variable {H : Host}

/-- The package a name is resolved to, and what it declares the tool to be. -/
def Registry.route (r : Registry) (tool : String) : Option (Installed × ToolDecl) :=
  (r.ownerOf tool).bind fun owner => (owner.tool tool).map fun decl => (owner, decl)

/-- The installed set as it is kept: in the order of the ids, of packages that passed staging,
whose tools' names have a dot and differ. -/
structure Registry.Kept (r : Registry) : Prop where
  sorted : r.harnesses.Pairwise fun a b => a.id < b.id
  dotted : ∀ h ∈ r.harnesses, ∀ t ∈ h.tools, '.' ∈ t.name.toList
  distinct : ∀ h ∈ r.harnesses, (h.tools.map ToolDecl.name).Nodup

/-- A call by a shown tool's name is run by the harness it is shown under, one that is switched on,
with the kind, the confirm rule and the schema it is shown with; or by Core, where it is Core's. -/
def Registry.Reaches (r : Registry) (t : ExposedTool) : Prop :=
  if t.reason = .coreBuiltin then t.name ∈ coreToolNames ∧ builtinKind t.name = some t.kind
  else t.name ∉ coreToolNames ∧ ∃ owner decl, r.route t.name = some (owner, decl) ∧
    owner.id = t.harness ∧ owner.enabled = true ∧ decl.kind = t.kind ∧ decl.confirm = t.confirm ∧
    decl.params = t.params

/-- A package's tool has no name of Core's, and no package before its own has a tool of that
name. -/
def Registry.Alone (r : Registry) (t : ExposedTool) : Prop :=
  t.reason = .coreBuiltin ∨
    (t.name ∉ coreToolNames ∧ ∀ p ∈ r.harnesses, p.id < t.harness → p.tool t.name = none)

section Registries

variable {r : Registry} {h owner : Installed} {decl : ToolDecl} {tool : String}

/-- Two packages of one id are one. -/
theorem Registry.Kept.eq_of_id (hr : r.Kept) (hh : h ∈ r.harnesses) (ho : owner ∈ r.harnesses)
    (hid : owner.id = h.id) : owner = h := by
  have hinj := hr.sorted.imp (S := fun a b => a.id ≠ b.id) fun {a b} hlt => hlt.ne
  have hnodup : (r.harnesses.map Installed.id).Nodup := List.pairwise_map.mpr hinj
  exact List.inj_on_of_nodup_map hnodup ho hh hid

/-- A name is resolved to a package that has it, and that no such package is before. -/
theorem Registry.Kept.ownerOf_eq_some (hr : r.Kept) (h : r.ownerOf tool = some owner) :
    owner ∈ r.harnesses ∧ (owner.tool tool).isSome = true ∧
      ∀ p ∈ r.harnesses, p.id < owner.id → p.tool tool = none := by
  obtain ⟨hhas, before, after, hlist, hbefore⟩ := List.find?_eq_some_iff_append.mp h
  have hsplit : r.harnesses = before ++ owner :: after := hlist
  have hmem : owner ∈ r.harnesses := by
    rw [hsplit]
    exact List.mem_append_right _ List.mem_cons_self
  refine ⟨hmem, hhas, fun p hp hlt => ?_⟩
  have hsorted := hr.sorted
  rw [hsplit] at hp hsorted
  obtain hin | hin := List.mem_append.mp hp
  · have hnot := hbefore p hin
    simpa using hnot
  · -- what comes after has no lower id
    have hafter := (List.pairwise_cons.mp (List.pairwise_append.mp hsorted).2.1).1
    obtain rfl | hin := List.mem_cons.mp hin
    · exact absurd hlt (lt_irrefl _)
    · exact absurd hlt (hafter p hin).asymm

theorem Registry.Kept.tool_eq_some (hr : r.Kept) (hh : h ∈ r.harnesses) (hdecl : decl ∈ h.tools) :
    h.tool decl.name = some decl := by
  rw [Installed.tool]
  cases hfind : h.tools.find? fun t => t.name = decl.name with
  | none =>
    have hnone := List.find?_eq_none.mp hfind decl hdecl
    simp at hnone
  | some found =>
    have hname : found.name = decl.name := by simpa using List.find?_some hfind
    have hmem := List.mem_of_find?_eq_some hfind
    rw [List.inj_on_of_nodup_map (hr.distinct h hh) hmem hdecl hname]

/-- A package's tool is reached by its name exactly where it is alone. -/
theorem Registry.Kept.reaches_iff (hr : r.Kept) (hh : h ∈ r.harnesses) (hon : h.enabled = true)
    (hdecl : decl ∈ h.tools) {reason : ExposureReason} (hreason : reason ≠ .coreBuiltin) :
    r.Reaches (expose h.id reason decl) ↔ r.Alone (expose h.id reason decl) := by
  have hnot : (expose h.id reason decl).reason ≠ .coreBuiltin := hreason
  have htool := hr.tool_eq_some hh hdecl
  rw [Registry.Reaches, if_neg hnot, Registry.Alone, or_iff_right hnot]
  refine and_congr_right fun _ => ?_
  constructor
  · rintro ⟨owner, decl', hroute, hid, _⟩ p hp hlt
    obtain ⟨owner', howner, hmap⟩ := Option.bind_eq_some_iff.mp hroute
    obtain ⟨_, _, heq⟩ := Option.map_eq_some_iff.mp hmap
    obtain ⟨rfl, _⟩ := Prod.mk.inj heq
    obtain ⟨_, _, hbefore⟩ := hr.ownerOf_eq_some howner
    exact hbefore p hp (hid.symm ▸ hlt)
  · intro hbefore
    have hsome : ((r.ownerOf decl.name).isSome) = true := by
      rw [Registry.ownerOf, List.find?_isSome]
      exact ⟨h, hh, by rw [htool]; rfl⟩
    obtain ⟨owner, howner⟩ := Option.isSome_iff_exists.mp hsome
    obtain ⟨hmem, hhas, hfirst⟩ := hr.ownerOf_eq_some howner
    have hid : owner.id = h.id := by
      obtain hlt | heq | hlt := lt_trichotomy owner.id h.id
      · have hnone : owner.tool decl.name = none := hbefore owner hmem hlt
        rw [hnone] at hhas
        cases hhas
      · exact heq
      · have hnone := hfirst h hh hlt
        rw [htool] at hnone
        cases hnone
    obtain rfl := hr.eq_of_id hh hmem hid
    refine ⟨owner, decl, ?_, rfl, hon, rfl, rfl, rfl⟩
    have hroute : r.route decl.name = some (owner, decl) := by
      rw [Registry.route, howner, Option.bind_some, htool, Option.map_some]
    exact hroute

end Registries

/-! ### What is shown -/

namespace Exposure

variable {e : Exposure} {t : ExposedTool}

theorem mem_of_mem_fit {n : Nat} {tools : List (Nat × ExposedTool)} {dropped : List String}
    {x : Nat × ExposedTool} (h : x ∈ (e.fit H n tools dropped).1) : x ∈ tools := by
  induction n generalizing tools dropped with
  | zero => exact h
  | succ n ih =>
    rw [fit] at h
    split at h
    · exact h
    · split at h
      · exact List.mem_of_mem_filter (ih h)
      · split at h
        · exact h
        · exact List.mem_of_mem_eraseIdx (ih h)

theorem mem_candidates (h : t ∈ (e.activeSet H).tools) : ∃ rank, (rank, t) ∈ e.candidates := by
  obtain ⟨⟨rank, t'⟩, hmem, rfl⟩ := List.mem_map.mp ((List.mem_insertionSort _).mp h)
  exact ⟨rank, mem_of_mem_fit hmem⟩

/-- What fits the budget is all shown. -/
theorem mem_activeSet {rank : Nat} (h : (rank, t) ∈ e.candidates)
    (hfits : cost H e.candidates ≤ e.profile.toolBudgetTokens) : t ∈ (e.activeSet H).tools := by
  have hfit : ∀ n, e.fit H n e.candidates [] = (e.candidates, []) := by
    intro n
    cases n with
    | zero => rfl
    | succ n => rw [fit, if_pos hfits]
  rw [activeSet, hfit, List.mem_insertionSort]
  exact List.mem_map.mpr ⟨(rank, t), h, rfl⟩

/-- What is Core's is named and of the kind that Core knows. -/
theorem coreTools_known (h : t ∈ e.coreTools) : t.reason = .coreBuiltin ∧
    t.name ∈ coreToolNames ∧ builtinKind t.name = some t.kind := by
  rw [coreTools] at h
  split at h
  · cases h
  · simp only [List.mem_append, List.mem_cons, List.not_mem_nil, or_false] at h
    obtain ((rfl | rfl | rfl) | hsearch) | hfetch := h
    · exact ⟨rfl, by decide, rfl⟩
    · exact ⟨rfl, by decide, rfl⟩
    · exact ⟨rfl, by decide, rfl⟩
    · split at hsearch
      · rw [List.mem_singleton.mp hsearch]
        exact ⟨rfl, by decide, rfl⟩
      · cases hsearch
    · split at hfetch
      · rw [List.mem_singleton.mp hfetch]
        exact ⟨rfl, by decide, rfl⟩
      · cases hfetch

theorem mem_shown {h : Installed} {tools : List ToolDecl} {rank rank' : Nat}
    {reason : ExposureReason} (hmem : (rank', t) ∈ e.shown h tools rank reason) :
    ∃ decl ∈ tools, t = expose h.id reason decl := by
  obtain ⟨decl, hdecl, heq⟩ := List.mem_map.mp hmem
  exact ⟨decl, List.mem_of_mem_filter hdecl, (Prod.mk.inj heq).2.symm⟩

/-- What is shown is Core's own, or declared by a package that is switched on. -/
theorem shown_cases (h : t ∈ (e.activeSet H).tools) : t ∈ e.coreTools ∨
    ∃ p ∈ e.registry.harnesses, p.enabled = true ∧ ∃ decl ∈ p.tools, ∃ reason,
      reason ≠ ExposureReason.coreBuiltin ∧ t = expose p.id reason decl := by
  obtain ⟨rank, hmem⟩ := mem_candidates h
  rw [candidates, List.mem_append, List.mem_append] at hmem
  obtain (hcore | hfocused) | hdoors := hmem
  · obtain ⟨t', ht', heq⟩ := List.mem_map.mp hcore
    obtain ⟨_, rfl⟩ := Prod.mk.inj heq
    exact .inl (List.mem_of_mem_filter ht')
  · rw [focusedTools] at hfocused
    split at hfocused
    · next p hp =>
      split at hfocused
      · next hon =>
        obtain ⟨focus, _, hget⟩ := Option.bind_eq_some_iff.mp hp
        obtain ⟨decl, hdecl, rfl⟩ := mem_shown hfocused
        exact .inr ⟨p, List.mem_of_find?_eq_some hget, hon, decl, hdecl, _, by decide, rfl⟩
      · cases hfocused
    · cases hfocused
  · obtain ⟨p, hp, hdoor⟩ := List.mem_flatMap.mp hdoors
    rw [frontDoors] at hdoor
    split at hdoor
    · cases hdoor
    · next hon =>
      have henabled : p.enabled = true := by
        by_contra hoff
        exact hon (.inl (by simpa using hoff))
      split at hdoor
      · obtain ⟨decl, hdecl, rfl⟩ := mem_shown hdoor
        exact .inr ⟨p, hp, henabled, decl, List.mem_of_mem_filter hdecl, _, by decide, rfl⟩
      · split at hdoor
        · obtain ⟨decl, hdecl, rfl⟩ := mem_shown hdoor
          exact .inr ⟨p, hp, henabled, decl, List.mem_of_mem_filter hdecl, _, by decide, rfl⟩
        · cases hdoor

/-- **Tools and their names**: whatever is installed, focused, pinned, touched and budgeted, a call
by the name of a shown tool reaches it exactly where the name is alone. -/
theorem reached_iff (hr : e.registry.Kept) (h : t ∈ (e.activeSet H).tools) :
    e.registry.Reaches t ↔ e.registry.Alone t := by
  obtain hcore | ⟨p, hp, hon, decl, hdecl, reason, hreason, rfl⟩ := shown_cases h
  · obtain ⟨hreason, hname, hkind⟩ := coreTools_known hcore
    rw [Registry.Reaches, if_pos hreason]
    exact iff_of_true ⟨hname, hkind⟩ (.inl hreason)
  · exact hr.reaches_iff hp hon hdecl hreason

end Exposure

namespace Sample

/-- A package with one tool, which writes after asking or without. -/
def toolbox (id : HarnessId) (name : String) (confirm : Confirm) (enabled : Bool) : Installed :=
  { notes with
    id := id
    tools := [tool name .write confirm]
    enabled := enabled }

/-- Its own page is in focus. -/
def focusedOn (id : HarnessId) (installed : List Installed) : Exposure where
  registry := ⟨installed⟩
  profile := ⟨100, 100, 100, 100⟩
  focus := some id
  pinned := []
  touched := []
  network := .airgapped
  search := false
  readOnly := false
  readOnlyHarnesses := []

/-- `org.tools`, and a package before it with a tool of another name. -/
def apartTools : Exposure :=
  focusedOn "org.tools"
    [toolbox "com.tools" "y.run" .never true, toolbox "org.tools" "x.run" .always true]

/-- `org.tools`, and a package before it with a tool of that name, switched off. -/
def twoTools : Exposure :=
  focusedOn "org.tools"
    [toolbox "com.tools" "x.run" .never false, toolbox "org.tools" "x.run" .always true]

/-- The tool as it is shown. -/
def shownTool : ExposedTool :=
  expose "org.tools" .focused (tool "x.run" .write .always)

/-- Both packages have passed staging. -/
theorem toolboxes_kept {name name' : String} {confirm confirm' : Confirm} {on on' : Bool}
    (h : '.' ∈ name.toList) (h' : '.' ∈ name'.toList) :
    Registry.Kept ⟨[toolbox "com.tools" name confirm on, toolbox "org.tools" name' confirm' on']⟩ := by
  refine ⟨List.pairwise_pair.mpr (by decide : ("com.tools" : String) < "org.tools"), ?_, ?_⟩
  · intro p hp t ht
    obtain rfl | rfl := List.mem_pair.mp hp
    · exact List.mem_singleton.mp ht ▸ h
    · exact List.mem_singleton.mp ht ▸ h'
  · intro p hp
    obtain rfl | rfl := List.mem_pair.mp hp
    · exact List.nodup_singleton _
    · exact List.nodup_singleton _

theorem shownTool_shown {e : Exposure} (hfocused : e.focusedTools = [(1, shownTool)])
    (hfits : Exposure.cost host e.candidates ≤ e.profile.toolBudgetTokens) :
    shownTool ∈ (e.activeSet host).tools := by
  have hmem : (1, shownTool) ∈ e.focusedTools := by
    rw [hfocused]
    exact List.mem_singleton_self _
  exact Exposure.mem_activeSet (List.mem_append_left _ (List.mem_append_right _ hmem)) hfits

theorem reached_iff_apart : shownTool ∈ (apartTools.activeSet host).tools ∧
    apartTools.registry.Reaches shownTool := by
  have hshown : shownTool ∈ (apartTools.activeSet host).tools :=
    shownTool_shown rfl (by decide)
  refine ⟨hshown, (Exposure.reached_iff (toolboxes_kept (by decide) (by decide)) hshown).mpr
    (.inr ⟨by decide, fun p hp hlt => ?_⟩)⟩
  obtain rfl | rfl := List.mem_pair.mp hp
  · rfl
  · exact absurd hlt (lt_irrefl _)

/-- Both packages would have passed staging, and the tool is shown under the one in focus; a call of
it is resolved to the other, which is switched off, and would not have asked. -/
theorem shadowed : twoTools.registry.Kept ∧ shownTool ∈ (twoTools.activeSet host).tools ∧
    (twoTools.registry.route "x.run").map (fun r => (r.1.id, r.1.enabled, r.2.confirm)) =
      some ("com.tools", false, .never) ∧
    ¬twoTools.registry.Reaches shownTool := by
  have hroute : (twoTools.registry.route "x.run").map
      (fun r => (r.1.id, r.1.enabled, r.2.confirm)) = some ("com.tools", false, .never) := by
    decide
  refine ⟨toolboxes_kept (by decide) (by decide), shownTool_shown rfl (by decide), hroute, ?_⟩
  · rintro ⟨_, owner, decl, hsome, hid, _⟩
    rw [show shownTool.name = "x.run" from rfl] at hsome
    rw [hsome] at hroute
    have howner : owner.id = "com.tools" := (Prod.mk.inj (Option.some.inj hroute)).1
    rw [hid] at howner
    exact absurd howner (by decide)

end Sample

end LocalSpace
