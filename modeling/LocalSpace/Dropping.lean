import LocalSpace.Budgets
import LocalSpace.Manifests
import LocalSpace.ToolNames

/-!
# What the tool budget drops

`exposure.rs`'s `active_set` over the victims of its loop: whole harnesses, touched before pinned,
and then the focused one's tools, front doors last, until the rest costs no more than the budget or
only Core's own are left. Whatever tools cost, the victims come in one order, so a larger budget
stops the same loop earlier. What is dropped is named by text: a package's tool may have the name of
one of Core's, so a tool that is shown may read as dropped.
-/

namespace LocalSpace

variable {H : Host}

/-! ### The last of the greatest -/

section LastMax

variable {α : Type} {le : α → α → Bool} {xs : List α} {b : α}

theorem lastMax_concat (le : α → α → Bool) (xs : List α) (x : α) : lastMax le (xs ++ [x]) =
    some ((lastMax le xs).elim x fun b => if le b x then x else b) := by
  rw [lastMax, List.foldl_append, ← lastMax]
  rcases lastMax le xs with _ | b
  · rfl
  · rcases hle : le b x <;> simp [hle]

theorem lastMax_eq_none (h : lastMax le xs = none) : xs = [] := by
  induction xs using List.reverseRecOn with
  | nil => rfl
  | append_singleton xs x _ => simp [lastMax_concat] at h

/-- It is one of them, and no other is above it. -/
theorem lastMax_spec (htotal : ∀ a b, le a b = true ∨ le b a = true)
    (htrans : ∀ a b c, le a b = true → le b c = true → le a c = true)
    (h : lastMax le xs = some b) : b ∈ xs ∧ ∀ x ∈ xs, le x b = true := by
  induction xs using List.reverseRecOn generalizing b with
  | nil => simp [lastMax] at h
  | append_singleton xs x ih =>
    have hrefl : ∀ a, le a a = true := fun a => (htotal a a).elim id id
    rw [lastMax_concat, Option.some.injEq] at h
    rcases hxs : lastMax le xs with _ | best
    · rw [hxs, Option.elim_none] at h
      rw [lastMax_eq_none hxs, h]
      simp [hrefl]
    · obtain ⟨hmem, hbest⟩ := ih hxs
      rw [hxs, Option.elim_some] at h
      split_ifs at h with hle
      · subst h
        refine ⟨by simp, fun y hy => ?_⟩
        rcases List.mem_append.mp hy with hy | hy
        · exact htrans y best x (hbest y hy) hle
        · rw [List.mem_singleton.mp hy]
          exact hrefl x
      · subst h
        refine ⟨List.mem_append_left _ hmem, fun y hy => ?_⟩
        rcases List.mem_append.mp hy with hy | hy
        · exact hbest y hy
        · rw [List.mem_singleton.mp hy]
          exact (htotal x best).resolve_right hle

end LastMax

namespace Exposure

variable {e : Exposure}

/-- A candidate: its rank, and the tool as it would be shown. -/
abbrev Candidate := ℕ × ExposedTool

/-- Whether a name is a front door of the focused harness. -/
def isDoor (e : Exposure) (name : String) : Bool :=
  ((((e.focus.bind e.registry.get).map Installed.tools).getD []).filter ToolDecl.frontDoor).any
    fun d => d.name = name

/-- How soon a candidate goes: a touched harness's first, then a pinned one's, then the focused
one's tools but for its front doors, then those; Core's own never. -/
@[grind =]
def goes (e : Exposure) (c : Candidate) : ℕ :=
  if c.1 = 0 then 0
  else if c.1 = 1 then (if e.isDoor c.2.name then 1 else 2)
  else c.1 + 1

/-- What is named of a victim: its harness, where all of that goes. -/
def nameOf (v : Candidate) : String :=
  if 2 ≤ v.1 then v.2.harness else v.2.name

/-- What goes with a victim. -/
def DroppedBy (v c : Candidate) : Prop :=
  if 2 ≤ v.1 then c.2.harness = v.2.harness else c = v

/-- Core's and the focused harness's candidates are of no harness that goes whole, and the focused
harness's differ. -/
structure Apart (tools : List Candidate) : Prop where
  harness : ∀ a ∈ tools, ∀ b ∈ tools, 2 ≤ a.1 → b.1 < 2 → b.2.harness ≠ a.2.harness
  focused : (tools.filter fun c => c.1 = 1).Nodup

/-- What is left of candidates once some victims went, in their order. -/
structure Trim (e : Exposure) (H : Host) (tools victims out : List Candidate) : Prop where
  sub : out.Sublist tools
  /-- The rest is within the budget, or Core's own. -/
  rest : cost H out ≤ e.profile.toolBudgetTokens ∨ ∀ c ∈ out, c.1 = 0
  among : ∀ v ∈ victims, v ∈ tools ∧ v.1 ≠ 0
  ordered : victims.Pairwise fun v later => e.goes later ≤ e.goes v
  above : ∀ c ∈ out, ∀ v ∈ victims, e.goes c ≤ e.goes v
  builtins : ∀ c ∈ tools, c.1 = 0 → c ∈ out
  gone : ∀ c ∈ tools, c ∉ out → ∃ v ∈ victims, DroppedBy v c
  kept : ∀ c ∈ out, ∀ v ∈ victims, ¬DroppedBy v c

/-! ### One step of the loop -/

theorem ranksBelow_total (a b : Candidate) : ranksBelow H a b = true ∨ ranksBelow H b a = true := by
  simp only [ranksBelow, decide_eq_true_eq]
  omega

theorem ranksBelow_trans (a b c : Candidate) (hab : ranksBelow H a b = true)
    (hbc : ranksBelow H b c = true) : ranksBelow H a c = true := by
  simp only [ranksBelow, decide_eq_true_eq] at hab hbc ⊢
  omega

theorem rank_le_of_ranksBelow {a b : Candidate} (h : ranksBelow H a b = true) : a.1 ≤ b.1 := by
  simp only [ranksBelow, decide_eq_true_eq] at h
  omega

/-- The widest of the focused harness's tools is one of them, and no front door where those are to
be kept. -/
theorem widest_some {keep : Bool} {tools : List Candidate} {i : ℕ} {name : String}
    (h : e.widest H keep tools = some (i, name)) : ∃ c, tools[i]? = some c ∧ c.1 = 1 ∧
      c.2.name = name ∧ (keep = true → e.isDoor name = false) := by
  obtain ⟨⟨c, j⟩, hmax, heq⟩ := Option.map_eq_some_iff.mp h
  obtain ⟨rfl, rfl⟩ := Prod.mk.inj heq
  have hmem := (lastMax_spec (fun a b => by simp only [decide_eq_true_eq]; omega)
    (fun a b c hab hbc => by simp only [decide_eq_true_eq] at hab hbc ⊢; omega) hmax).1
  obtain ⟨hindex, heligible⟩ := List.mem_filter.mp hmem
  rw [Bool.and_eq_true, decide_eq_true_eq] at heligible
  refine ⟨c, List.mem_zipIdx_iff_getElem?.mp hindex, heligible.1, rfl, fun hkeep => ?_⟩
  have hnot := heligible.2
  rw [hkeep, Bool.true_and, Bool.not_eq_true'] at hnot
  exact hnot

theorem widest_none {keep : Bool} {tools : List Candidate} (h : e.widest H keep tools = none) :
    ∀ c ∈ tools, c.1 = 1 → keep = true ∧ e.isDoor c.2.name = true := by
  intro c hc hrank
  have hempty := lastMax_eq_none (Option.map_eq_none_iff.mp h)
  obtain ⟨i, hi⟩ := List.mem_iff_getElem?.mp hc
  have hnot := List.filter_eq_nil_iff.mp hempty (c, i) (List.mem_zipIdx_iff_getElem?.mpr hi)
  rw [Bool.and_eq_true, decide_eq_true_eq, not_and, Bool.not_eq_true, Bool.not_eq_false',
    Bool.and_eq_true] at hnot
  exact hnot hrank

/-- What one step of the loop does: it stops within the budget, or drops the harness of the highest
rank, or a tool of the focused one's, or has nothing left to drop. -/
inductive Step (e : Exposure) (H : Host) (tools : List Candidate) : Option Candidate →
    List Candidate → Prop
  | within (h : cost H tools ≤ e.profile.toolBudgetTokens) : Step e H tools none tools
  | harness {v : Candidate} (hmem : v ∈ tools) (hrank : 2 ≤ v.1) (hmost : ∀ c ∈ tools, c.1 ≤ v.1) :
      Step e H tools (some v) (tools.filter fun t => t.2.harness ≠ v.2.harness)
  | focused {v : Candidate} {i : ℕ} (hi : tools[i]? = some v) (hrank : v.1 = 1)
      (hlow : ∀ c ∈ tools, c.1 < 2)
      (hdoor : e.isDoor v.2.name = true → ∀ c ∈ tools, c.1 = 1 → e.isDoor c.2.name = true) :
      Step e H tools (some v) (tools.eraseIdx i)
  | builtins (h : ∀ c ∈ tools, c.1 = 0) : Step e H tools none tools

/-- The loop makes one step, and goes on where that dropped something. -/
theorem fit_succ (n : ℕ) (tools : List Candidate) (dropped : List String) :
    ∃ victim tools', Step e H tools victim tools' ∧ e.fit H (n + 1) tools dropped =
      victim.elim (tools', dropped) fun v => e.fit H n tools' (dropped ++ [nameOf v]) := by
  rw [fit]
  split_ifs with hwithin
  · exact ⟨none, tools, .within hwithin, rfl⟩
  rcases hmax : lastMax (ranksBelow H) (tools.filter fun t => 2 ≤ t.1) with _ | v
  · have hlow : ∀ c ∈ tools, c.1 < 2 := by
      intro c hc
      have hnot := List.filter_eq_nil_iff.mp (lastMax_eq_none hmax) c hc
      simpa using hnot
    rcases htrue : e.widest H true tools with _ | ⟨i, name⟩
    · rcases hfalse : e.widest H false tools with _ | ⟨i, name⟩
      · refine ⟨none, tools, .builtins fun c hc => ?_, rfl⟩
        have hnot : c.1 ≠ 1 := fun hone => by
          have hkeep := (widest_none hfalse c hc hone).1
          contradiction
        have hlt := hlow c hc
        omega
      · obtain ⟨c, hi, hrank, rfl, -⟩ := widest_some hfalse
        refine ⟨some c, tools.eraseIdx i, .focused hi hrank hlow fun _ c' hc' hone =>
          (widest_none htrue c' hc' hone).2, ?_⟩
        simp [nameOf, hrank]
    · obtain ⟨c, hi, hrank, rfl, hnot⟩ := widest_some htrue
      refine ⟨some c, tools.eraseIdx i, .focused hi hrank hlow fun hdoor => ?_, ?_⟩
      · rw [hnot rfl] at hdoor
        contradiction
      · simp [nameOf, hrank]
  · obtain ⟨hmem, hmost⟩ := lastMax_spec ranksBelow_total ranksBelow_trans hmax
    obtain ⟨hv, hrank⟩ := List.mem_filter.mp hmem
    have hrank : 2 ≤ v.1 := of_decide_eq_true hrank
    refine ⟨some v, _, .harness hv hrank fun c hc => ?_, ?_⟩
    · by_cases hc2 : 2 ≤ c.1
      · exact rank_le_of_ranksBelow (hmost c (List.mem_filter.mpr ⟨hc, decide_eq_true hc2⟩))
      · omega
    · simp [nameOf, hrank]

/-! ### The loop -/

theorem Apart.sublist {tools tools' : List Candidate} (h : Apart tools)
    (hsub : tools'.Sublist tools) : Apart tools' where
  harness a ha b hb := h.harness a (hsub.subset ha) b (hsub.subset hb)
  focused := h.focused.sublist (hsub.filter _)

/-- A focused tool is gone once it was taken out. -/
theorem Apart.notMem_eraseIdx {tools : List Candidate} (h : Apart tools) {i : ℕ} {v : Candidate}
    (hi : tools[i]? = some v) (hrank : v.1 = 1) :
    v ∉ tools.eraseIdx i ∧ ∀ c ∈ tools, c ≠ v → c ∈ tools.eraseIdx i := by
  obtain ⟨hlt, hget⟩ := List.getElem?_eq_some_iff.mp hi
  have hsplit : tools = tools.take i ++ v :: tools.drop (i + 1) := by
    rw [← hget, List.cons_getElem_drop_succ, List.take_append_drop]
  have hnodup := h.focused
  rw [hsplit, List.filter_append, List.filter_cons_of_pos (by simpa using hrank),
    List.nodup_middle, List.nodup_cons, List.mem_append, not_or] at hnodup
  rw [List.eraseIdx_eq_take_drop_succ, List.mem_append, not_or]
  refine ⟨⟨fun hmem => hnodup.1.1 (List.mem_filter.mpr ⟨hmem, by simpa using hrank⟩),
    fun hmem => hnodup.1.2 (List.mem_filter.mpr ⟨hmem, by simpa using hrank⟩)⟩, fun c hc hne => ?_⟩
  rw [hsplit, List.mem_append, List.mem_cons] at hc
  rw [List.mem_append]
  exact hc.imp_right fun hc => hc.resolve_left hne

theorem length_lt_of_sublist {α : Type} {xs ys : List α} {v : α} (hsub : xs.Sublist ys)
    (hmem : v ∈ ys) (hnot : v ∉ xs) : xs.length < ys.length := by
  refine lt_of_le_of_ne hsub.length_le fun hlength => hnot ?_
  rw [hsub.eq_of_length hlength]
  exact hmem

/-- What a step that drops something leaves: a shorter rest without what goes with the victim, which
goes no later than anything there. -/
theorem Step.drops {tools tools' : List Candidate} {v : Candidate}
    (h : Step e H tools (some v) tools') (hapart : Apart tools) : tools'.Sublist tools ∧
      tools'.length < tools.length ∧ v ∈ tools ∧ v.1 ≠ 0 ∧ (∀ c ∈ tools, e.goes c ≤ e.goes v) ∧
      ∀ c ∈ tools, (c ∈ tools' ↔ ¬DroppedBy v c) := by
  rcases h with _ | ⟨hmem, hrank, hmost⟩ | ⟨hi, hrank, hlow, hdoor⟩ | _
  · have hsub : (tools.filter fun t => t.2.harness ≠ v.2.harness).Sublist tools :=
      List.filter_sublist
    have hnot : v ∉ tools.filter fun t => t.2.harness ≠ v.2.harness := by simp
    refine ⟨hsub, length_lt_of_sublist hsub hmem hnot, hmem, by omega, fun c hc => ?_,
      fun c hc => ?_⟩
    · have hle := hmost c hc
      have hv : e.goes v = v.1 + 1 := by
        rw [goes, if_neg (by omega), if_neg (by omega)]
      rw [hv, goes]
      split_ifs <;> omega
    · rw [List.mem_filter, DroppedBy, if_pos hrank, decide_eq_true_eq]
      exact and_iff_right hc
  · rename_i i
    obtain ⟨hgone, hstays⟩ := hapart.notMem_eraseIdx hi hrank
    have hmem := List.mem_of_getElem? hi
    have hsub : (tools.eraseIdx i).Sublist tools := List.eraseIdx_sublist _ _
    refine ⟨hsub, length_lt_of_sublist hsub hmem hgone, hmem, by omega, fun c hc => ?_,
      fun c hc => ?_⟩
    · have hlt := hlow c hc
      have hv : e.goes v = if e.isDoor v.2.name then 1 else 2 := by
        rw [goes, if_neg (by omega), if_pos hrank]
      rcases Nat.eq_zero_or_pos c.1 with hzero | hpos
      · rw [goes, if_pos hzero]
        exact Nat.zero_le _
      · have hone : c.1 = 1 := by omega
        rw [hv, goes, if_neg (by omega), if_pos hone]
        rcases hkind : e.isDoor v.2.name with _ | _
        · simp only [Bool.false_eq_true, if_false]
          split_ifs <;> omega
        · rw [hdoor hkind c hc hone]
    · rw [DroppedBy, if_neg (by omega : ¬2 ≤ v.1)]
      constructor
      · rintro hc' rfl
        exact hgone hc'
      · exact hstays c hc

/-- A step that drops nothing has a rest within the budget, or of Core's own. -/
theorem Step.stops {tools tools' : List Candidate} (h : Step e H tools none tools') :
    tools' = tools ∧ (cost H tools ≤ e.profile.toolBudgetTokens ∨ ∀ c ∈ tools, c.1 = 0) := by
  rcases h with h | _ | _ | h
  · exact ⟨rfl, Or.inl h⟩
  · exact ⟨rfl, Or.inr h⟩

theorem Trim.stop {tools : List Candidate}
    (h : cost H tools ≤ e.profile.toolBudgetTokens ∨ ∀ c ∈ tools, c.1 = 0) :
    Trim e H tools [] tools where
  sub := List.Sublist.refl tools
  rest := h
  among v hv := by simp at hv
  ordered := List.Pairwise.nil
  above c _ v hv := by simp at hv
  builtins c hc _ := hc
  gone c hc hnot := absurd hc hnot
  kept c _ v hv := by simp at hv

/-- One victim more, before those of the rest. -/
theorem Trim.drop {tools tools' victims out : List Candidate} {v : Candidate}
    (hstep : Step e H tools (some v) tools') (hapart : Apart tools)
    (h : Trim e H tools' victims out) : Trim e H tools (v :: victims) out := by
  obtain ⟨hsub, -, hmem, hrank, hmost, hleft⟩ := hstep.drops hapart
  have hout : ∀ c ∈ out, c ∈ tools' := fun c hc => h.sub.subset hc
  constructor
  · exact h.sub.trans hsub
  · exact h.rest
  · exact List.forall_mem_cons.mpr
      ⟨⟨hmem, hrank⟩, fun w hw => ⟨hsub.subset (h.among w hw).1, (h.among w hw).2⟩⟩
  · exact List.pairwise_cons.mpr
      ⟨fun w hw => hmost w (hsub.subset (h.among w hw).1), h.ordered⟩
  · exact fun c hc => List.forall_mem_cons.mpr
      ⟨hmost c (hsub.subset (hout c hc)), h.above c hc⟩
  · refine fun c hc hzero => h.builtins c ((hleft c hc).mpr fun hdropped => ?_) hzero
    rw [DroppedBy] at hdropped
    split_ifs at hdropped with htwo
    · exact hapart.harness v hmem c hc htwo (by omega) hdropped
    · rw [hdropped] at hzero
      exact hrank hzero
  · intro c hc hnot
    by_cases hdropped : DroppedBy v c
    · exact ⟨v, List.mem_cons_self, hdropped⟩
    · obtain ⟨w, hw, hgone⟩ := h.gone c ((hleft c hc).mpr hdropped) hnot
      exact ⟨w, List.mem_cons_of_mem _ hw, hgone⟩
  · exact fun c hc => List.forall_mem_cons.mpr
      ⟨(hleft c (hsub.subset (hout c hc))).mp (hout c hc), h.kept c hc⟩

/-- The loop ends of itself: as many steps as there are candidates are enough. -/
theorem fit_trims {n : ℕ} {tools : List Candidate} (hlength : tools.length ≤ n)
    (hapart : Apart tools) (dropped : List String) : ∃ victims,
      Trim e H tools victims (e.fit H n tools dropped).1 ∧
      (e.fit H n tools dropped).2 = dropped ++ victims.map nameOf := by
  induction n generalizing tools dropped with
  | zero =>
    have hnil : tools = [] := List.eq_nil_of_length_eq_zero (Nat.le_zero.mp hlength)
    rw [hnil, fit]
    exact ⟨[], Trim.stop (Or.inr (by simp)), by simp⟩
  | succ n ih =>
    obtain ⟨victim, tools', hstep, heq⟩ := @fit_succ H e n tools dropped
    rw [heq]
    rcases victim with _ | v
    · obtain ⟨rfl, hrest⟩ := hstep.stops
      exact ⟨[], Trim.stop hrest, by simp⟩
    · obtain ⟨hsub, hless, -⟩ := hstep.drops hapart
      obtain ⟨victims, htrim, hdropped⟩ :=
        ih (Nat.le_of_lt_succ (hless.trans_le hlength)) (hapart.sublist hsub)
          (dropped ++ [nameOf v])
      refine ⟨v :: victims, Trim.drop hstep hapart htrim, ?_⟩
      rw [Option.elim_some, hdropped, List.map_cons, List.append_assoc, List.singleton_append]

/-- The same turn with another budget. -/
def withBudget (e : Exposure) (budget : ℕ) : Exposure :=
  { e with profile := { e.profile with toolBudgetTokens := budget } }

theorem fit_sublist (n : ℕ) (tools : List Candidate) (dropped : List String) :
    (e.fit H n tools dropped).1.Sublist tools := by
  induction n generalizing tools dropped with
  | zero => exact List.Sublist.refl _
  | succ n ih =>
    rw [fit]
    split_ifs
    · exact List.Sublist.refl _
    rcases lastMax (ranksBelow H) (tools.filter fun t => 2 ≤ t.1) with _ | v
    · rcases (e.widest H true tools).or (e.widest H false tools) with _ | ⟨i, name⟩
      · exact List.Sublist.refl _
      · exact (ih _ _).trans (List.eraseIdx_sublist _ _)
    · exact (ih _ _).trans List.filter_sublist

/-- Where the last tool alone is what there is no room for, and it is the widest, it goes. -/
theorem fit_drops_last {n : ℕ} {tools : List Candidate} {t : Candidate}
    (hbudget : e.profile.toolBudgetTokens = cost H tools) (hpos : 0 < H.toolCost t.2)
    (hnone : lastMax (ranksBelow H) ((tools ++ [t]).filter fun t => 2 ≤ t.1) = none)
    (hwidest : e.widest H true (tools ++ [t]) = some (tools.length, t.2.name)) :
    e.fit H (n + 2) (tools ++ [t]) [] = (tools, [t.2.name]) := by
  have hcost : cost H (tools ++ [t]) = cost H tools + H.toolCost t.2 := by
    rw [cost, cost, List.map_append, List.sum_append_nat, List.map_singleton, List.sum_singleton]
  have hover : ¬cost H (tools ++ [t]) ≤ e.profile.toolBudgetTokens := by omega
  have herase : (tools ++ [t]).eraseIdx tools.length = tools := by
    rw [List.eraseIdx_append_of_length_le le_rfl, Nat.sub_self, List.eraseIdx_cons_zero,
      List.append_nil]
  rw [fit, if_neg hover, hnone, hwidest]
  simp only [Option.some_or, herase, List.nil_append]
  rw [fit, if_pos hbudget.ge]

/-- A larger budget stops the loop no later. -/
theorem fit_mono {budget : ℕ} (hbudget : e.profile.toolBudgetTokens ≤ budget) (n : ℕ)
    (tools : List Candidate) (dropped : List String) : (e.fit H n tools dropped).1.Sublist
      ((e.withBudget budget).fit H n tools dropped).1 := by
  induction n generalizing tools dropped with
  | zero => exact List.Sublist.refl _
  | succ n ih =>
    have hwidest : ∀ keep, (e.withBudget budget).widest H keep tools = e.widest H keep tools :=
      fun _ => rfl
    have hprofile : (e.withBudget budget).profile.toolBudgetTokens = budget := rfl
    by_cases hmore : cost H tools ≤ budget
    · have hall : (e.withBudget budget).fit H (n + 1) tools dropped = (tools, dropped) := by
        rw [fit, hprofile, if_pos hmore]
      rw [hall]
      exact fit_sublist _ _ _
    · rw [fit, fit, hprofile, if_neg hmore, if_neg fun h => hmore (h.trans hbudget), hwidest,
        hwidest]
      rcases lastMax (ranksBelow H) (tools.filter fun t => 2 ≤ t.1) with _ | v
      · rcases (e.widest H true tools).or (e.widest H false tools) with _ | ⟨i, name⟩
        · exact List.Sublist.refl _
        · exact ih _ _
      · exact ih _ _

/-! ### A turn's candidates -/

/-- Whether a tool is the caller's to see: one who only reads sees what reads, and none of the
writes of a harness whose document is not theirs to change. -/
def MayUse (e : Exposure) (t : ExposedTool) : Prop :=
  (e.readOnly = true → t.kind = .read) ∧
    (t.kind = .write → t.reason ≠ .coreBuiltin → t.harness ∉ e.readOnlyHarnesses)

theorem coreTools_harness {t : ExposedTool} (h : t ∈ e.coreTools) : t.harness = coreHarness := by
  rw [coreTools] at h
  split_ifs at h
  · simp at h
  · simp only [List.mem_append, List.mem_cons, List.not_mem_nil, or_false] at h
    obtain ((rfl | rfl | rfl) | hsearch) | hfetch := h
    · rfl
    · rfl
    · rfl
    · split_ifs at hsearch
      · rw [List.mem_singleton.mp hsearch]
        rfl
      · simp at hsearch
    · split_ifs at hfetch
      · rw [List.mem_singleton.mp hfetch]
        rfl
      · simp at hfetch

theorem mayUse_of_shows {t : ExposedTool} (h : e.shows t.harness t.kind = true) : e.MayUse t := by
  rw [shows] at h
  split_ifs at h with hread
  · have hkind : t.kind = .read := of_decide_eq_true h
    exact ⟨fun _ => hkind, fun hwrite => by rw [hkind] at hwrite; contradiction⟩
  · refine ⟨fun htrue => absurd htrue hread, fun hwrite _ hmem => ?_⟩
    simp [hwrite, hmem] at h

/-- A harness's candidate: a tool of one that is switched on, and that the caller may see. -/
structure OfHarness (e : Exposure) (c : Candidate) (p : Installed) : Prop where
  mem : p ∈ e.registry.harnesses
  harness : c.2.harness = p.id
  shows : e.shows p.id c.2.kind = true

theorem ofHarness_of_mem_shown {p : Installed} {tools : List ToolDecl} {rank : ℕ}
    {reason : ExposureReason} {c : Candidate} (hp : p ∈ e.registry.harnesses)
    (h : c ∈ e.shown p tools rank reason) : c.1 = rank ∧ e.OfHarness c p := by
  obtain ⟨decl, hdecl, rfl⟩ := List.mem_map.mp h
  exact ⟨rfl, hp, rfl, (List.mem_filter.mp hdecl).2⟩

theorem mem_focusedTools {c : Candidate} (h : c ∈ e.focusedTools) :
    c.1 = 1 ∧ ∃ p, e.OfHarness c p ∧ e.focus = some p.id := by
  rw [focusedTools] at h
  rcases hp : e.focus.bind e.registry.get with _ | p <;> rw [hp] at h
  · simp at h
  · obtain ⟨focus, hfocus, hget⟩ := Option.bind_eq_some_iff.mp hp
    have hid : p.id = focus := by simpa using List.find?_some hget
    dsimp only at h
    split_ifs at h
    · obtain ⟨hrank, hof⟩ := ofHarness_of_mem_shown (List.mem_of_find?_eq_some hget) h
      exact ⟨hrank, p, hof, by rw [hfocus, hid]⟩
    · simp at h

theorem mem_frontDoors {p : Installed} {c : Candidate} (hp : p ∈ e.registry.harnesses)
    (h : c ∈ e.frontDoors p) : 2 ≤ c.1 ∧ e.OfHarness c p ∧ e.focus ≠ some p.id := by
  rw [frontDoors] at h
  split_ifs at h with hoff
  · simp at h
  · obtain ⟨hrank, hof⟩ := ofHarness_of_mem_shown hp h
    exact ⟨hrank.ge, hof, fun hfocus => hoff (Or.inr hfocus.symm)⟩
  · obtain ⟨hrank, hof⟩ := ofHarness_of_mem_shown hp h
    exact ⟨by omega, hof, fun hfocus => hoff (Or.inr hfocus.symm)⟩
  · simp at h

/-- Core's own first, then the focused harness's, then the front doors of the others in play. -/
theorem candidates_cases {c : Candidate} (h : c ∈ e.candidates) :
    (c.1 = 0 ∧ c.2.harness = coreHarness ∧ e.MayUse c.2) ∨
      ∃ p, e.OfHarness c p ∧ 1 ≤ c.1 ∧ (c.1 = 1 ↔ e.focus = some p.id) := by
  rw [candidates, List.mem_append, List.mem_append] at h
  rcases h with (hcore | hfocused) | hdoors
  · obtain ⟨t, ht, rfl⟩ := List.mem_map.mp hcore
    obtain ⟨ht, hread⟩ := List.mem_filter.mp ht
    refine Or.inl ⟨rfl, coreTools_harness ht, fun htrue => ?_, fun _ hnot => ?_⟩
    · simpa [htrue] using hread
    · exact absurd (coreTools_known ht).1 hnot
  · obtain ⟨hrank, p, hof, hfocus⟩ := mem_focusedTools hfocused
    exact Or.inr ⟨p, hof, hrank.ge, iff_of_true hrank hfocus⟩
  · obtain ⟨p, hp, hdoor⟩ := List.mem_flatMap.mp hdoors
    obtain ⟨hrank, hof, hfocus⟩ := mem_frontDoors hp hdoor
    exact Or.inr ⟨p, hof, by omega, iff_of_false (by omega) hfocus⟩

theorem mayUse_of_mem {c : Candidate} (h : c ∈ e.candidates) : e.MayUse c.2 := by
  obtain ⟨-, -, hmay⟩ | ⟨p, hof, -⟩ := candidates_cases h
  · exact hmay
  · refine mayUse_of_shows ?_
    rw [hof.harness]
    exact hof.shows

theorem focusedTools_nodup (hr : e.registry.Kept) : e.focusedTools.Nodup := by
  rw [focusedTools]
  rcases hp : e.focus.bind e.registry.get with _ | p
  · exact List.nodup_nil
  · obtain ⟨focus, -, hget⟩ := Option.bind_eq_some_iff.mp hp
    have hnames := hr.distinct p (List.mem_of_find?_eq_some hget)
    dsimp only
    split_ifs
    · refine List.Nodup.of_map (fun c : Candidate => c.2.name) ?_
      have hmap : (e.shown p p.tools 1 .focused).map (fun c => c.2.name) =
          (p.tools.filter fun t => e.shows p.id t.kind).map ToolDecl.name := by
        rw [shown, List.map_map]
        rfl
      rw [hmap]
      exact hnames.sublist (List.filter_sublist.map _)
    · exact List.nodup_nil

/-- The focused harness's are the candidates of its rank. -/
theorem filter_candidates : (e.candidates.filter fun c => c.1 = 1) = e.focusedTools := by
  have hcore : (((e.coreTools.filter fun t => !e.readOnly || t.kind = .read).map fun t =>
      ((0, t) : Candidate)).filter fun c => c.1 = 1) = [] := by
    refine List.filter_eq_nil_iff.mpr fun c hc => ?_
    obtain ⟨t, -, rfl⟩ := List.mem_map.mp hc
    simp
  have hfocused : (e.focusedTools.filter fun c => c.1 = 1) = e.focusedTools :=
    List.filter_eq_self.mpr fun c hc => decide_eq_true (mem_focusedTools hc).1
  have hdoors : ((e.registry.iter.flatMap e.frontDoors).filter fun c => c.1 = 1) = [] := by
    refine List.filter_eq_nil_iff.mpr fun c hc => ?_
    obtain ⟨p, hp, hdoor⟩ := List.mem_flatMap.mp hc
    have hrank := (mem_frontDoors hp hdoor).1
    rw [decide_eq_true_eq]
    omega
  rw [candidates, List.filter_append, List.filter_append, hcore, hfocused, hdoors, List.nil_append,
    List.append_nil]

theorem apart_candidates (hr : e.registry.Kept)
    (hids : ∀ p ∈ e.registry.harnesses, Manifests.isPackageId p.id = true) :
    Apart e.candidates where
  focused := by
    rw [filter_candidates]
    exact focusedTools_nodup hr
  harness a ha b hb hatwo hbtwo heq := by
    obtain ⟨hzero, -⟩ | ⟨p, hof, -, hfocus⟩ := candidates_cases ha
    · omega
    obtain ⟨-, hcore, -⟩ | ⟨q, hof', hone, hfocus'⟩ := candidates_cases hb
    · -- Core's id is no package's: it has no dot
      have hid := hids p hof.mem
      rw [← hof.harness, ← heq, hcore] at hid
      exact absurd hid (by decide)
    · have hq := hfocus'.mp (by omega)
      rw [← hof'.harness, heq, hof.harness] at hq
      have hrank := hfocus.mpr hq
      omega

theorem activeSet_perm (e : Exposure) : (e.activeSet H).tools.Perm
    ((e.fit H e.candidates.length e.candidates []).1.map Prod.snd) :=
  List.perm_insertionSort _ _

/-- A turn's active set: what is left once the victims went, the cost of that, and what is said of
them; what is shown is the caller's to use, and a larger budget shows all of it. -/
structure Fitted (e : Exposure) (H : Host) (victims out : List Candidate) : Prop where
  trim : Trim e H e.candidates victims out
  shown : (e.activeSet H).tools.Perm (out.map Prod.snd)
  estimate : (e.activeSet H).tokenEstimate = cost H out
  dropped : (e.activeSet H).dropped = victims.map nameOf
  allowed : ∀ t ∈ (e.activeSet H).tools, e.MayUse t
  larger : ∀ budget, e.profile.toolBudgetTokens ≤ budget → ∀ t ∈ (e.activeSet H).tools,
    t ∈ ((e.withBudget budget).activeSet H).tools

/-- **The tool budget**: whatever is installed, focused, pinned, touched and allowed, and whatever
tools cost, the candidates lose victims one after another until the rest is within the budget or
Core's own: harnesses touched, then pinned, then the focused one's tools, its front doors last. Each
candidate is shown or went with a victim, and not both, and `dropped` names the victims in order. -/
theorem activeSet_trims (hr : e.registry.Kept)
    (hids : ∀ p ∈ e.registry.harnesses, Manifests.isPackageId p.id = true) :
    ∃ victims out, e.Fitted H victims out := by
  obtain ⟨victims, htrim, hdropped⟩ :=
    @fit_trims H e _ e.candidates le_rfl (apart_candidates hr hids) []
  have hperm := @activeSet_perm H e
  refine ⟨victims, _, htrim, hperm, ?_, hdropped, fun t ht => ?_, fun budget hbudget t ht => ?_⟩
  · have hsum := (hperm.map H.toolCost).sum_nat
    rw [List.map_map] at hsum
    exact hsum
  · obtain ⟨c, hc, rfl⟩ := List.mem_map.mp (hperm.subset ht)
    exact mayUse_of_mem (htrim.sub.subset hc)
  · have hsub := (@fit_mono H e budget hbudget e.candidates.length e.candidates []).map Prod.snd
    exact (@activeSet_perm H (e.withBudget budget)).symm.subset (hsub.subset (hperm.subset ht))

/-- `token_cost`. -/
def tokenCost (H : Host) (t : ExposedTool) : ℕ :=
  Budgets.estimateTokens t.name + Budgets.estimateTokens t.summary +
    Budgets.estimateTokens (H.render t.params)

/-- A host whose tools cost what their names, summaries and schemas do. -/
def costed (H : Host) : Host :=
  { H with toolCost := tokenCost H }

end Exposure

namespace Sample

open Exposure

/-- The package that is not in focus is pinned, and there is room for Core's own tools alone. -/
def crowdedTools : Exposure :=
  { apartTools.withBudget 3 with pinned := ["com.tools"] }

theorem crowdedTools_trims : ∃ victims out, crowdedTools.Fitted host victims out ∧
    victims.map nameOf = ["com.tools", "x.run"] := by
  have hids : ∀ p ∈ crowdedTools.registry.harnesses, Manifests.isPackageId p.id = true := by
    intro p hp
    obtain rfl | rfl := List.mem_pair.mp hp
    · decide
    · decide
  obtain ⟨victims, out, hfitted⟩ := @activeSet_trims host crowdedTools
    (toolboxes_kept (by decide) (by decide)) hids
  exact ⟨victims, out, hfitted, hfitted.dropped.symm.trans (by decide +kernel)⟩

/-- A package's tool by the name of one of Core's. -/
def planner : ToolDecl :=
  ⟨"task.plan", "Plan a task", schema [] [], .read, false, true, .never⟩

def plannerPackage : Installed :=
  { notes with id := "org.tools", tools := [planner] }

/-- In focus, where the budget is that of Core's own tools. -/
def corePlanner : Exposure :=
  (focusedOn "org.tools" [plannerPackage]).withBudget
    (cost (costed host) ((focusedOn "org.tools" [plannerPackage]).coreTools.map fun t => (0, t)))

theorem planner_cost : 0 < tokenCost host (expose "org.tools" .focused planner) := by
  have hname : Budgets.estimateTokens "task.plan" = 3 := by
    have htext : "task.plan".toList = ['t', 'a', 's', 'k', '.', 'p', 'l', 'a', 'n'] :=
      String.toList_ofList
    rw [Budgets.estimateTokens, htext]
    decide
  have hcost : tokenCost host (expose "org.tools" .focused planner) =
      Budgets.estimateTokens "task.plan" + Budgets.estimateTokens "Plan a task" +
        Budgets.estimateTokens (host.render (schema [] [])) := rfl
  omega

theorem corePlanner_candidates : corePlanner.candidates =
    (corePlanner.coreTools.map fun t => (0, t)) ++
      [(1, expose "org.tools" .focused planner)] := by
  have hreads : corePlanner.coreTools.filter (fun t => !corePlanner.readOnly || t.kind = .read) =
      corePlanner.coreTools :=
    List.filter_eq_self.mpr fun _ _ => rfl
  have hfocused : corePlanner.focusedTools = [(1, expose "org.tools" .focused planner)] := rfl
  have hdoors : corePlanner.registry.iter.flatMap corePlanner.frontDoors = [] := rfl
  rw [candidates, hreads, hfocused, hdoors, List.append_nil]

theorem corePlanner_budget : corePlanner.profile.toolBudgetTokens =
    cost (costed host) (corePlanner.coreTools.map fun t => (0, t)) := by
  have hcore (e : Exposure) (budget : ℕ) : (e.withBudget budget).coreTools = e.coreTools := rfl
  have hbudget (e : Exposure) (budget : ℕ) :
      (e.withBudget budget).profile.toolBudgetTokens = budget := rfl
  rw [corePlanner, hcore, hbudget]

theorem corePlanner_fit : corePlanner.fit (costed host) 4 corePlanner.candidates [] =
    (corePlanner.coreTools.map fun t => (0, t), ["task.plan"]) := by
  rw [corePlanner_candidates]
  exact fit_drops_last corePlanner_budget planner_cost rfl rfl

/-- The tool is dropped, and named as the one of Core's that is shown. -/
theorem shown_and_dropped : corePlanner.registry.Kept ∧
    (∀ p ∈ corePlanner.registry.harnesses, Manifests.isPackageId p.id = true) ∧
    ∃ t ∈ (corePlanner.activeSet (costed host)).tools,
      t.name ∈ (corePlanner.activeSet (costed host)).dropped := by
  obtain ⟨t, ht, hname⟩ : ∃ t ∈ corePlanner.coreTools, t.name = "task.plan" :=
    ⟨_, List.mem_cons_of_mem _ List.mem_cons_self, rfl⟩
  have hlength : corePlanner.candidates.length = 4 := rfl
  have hperm := @activeSet_perm (costed host) corePlanner
  have hdropped : (corePlanner.activeSet (costed host)).dropped = ["task.plan"] := by
    rw [activeSet, hlength, corePlanner_fit]
  rw [hlength, corePlanner_fit] at hperm
  refine ⟨⟨List.pairwise_singleton _ _, fun h hh t ht => ?_, fun h hh => ?_⟩, fun p hp => ?_, t,
    hperm.symm.subset ?_, ?_⟩
  · rw [List.mem_singleton.mp hh] at ht
    rw [List.mem_singleton.mp ht]
    decide
  · rw [List.mem_singleton.mp hh]
    exact List.nodup_singleton _
  · rw [List.mem_singleton.mp hp]
    decide
  · rw [List.map_map]
    exact List.mem_map.mpr ⟨t, ht, rfl⟩
  · rw [hdropped, hname]
    exact List.mem_singleton_self _

end Sample

end LocalSpace
