import LocalSpace.Placing

/-!
# A plan that did not hold

`look_after_load` in `lib.rs`, and what it uses of `fit.rs` and `engine.rs`: when a start of the
engine is over, the model was loaded, with so much of it spilled into system memory, or the engine
gave up. Then layers are taken off the card, the model is placed again under the lower cap, and the
engine is started with that plan, until five starts were made. What the system says a process holds
is data of the outcome.
-/

namespace LocalSpace.Placing

def spilledMib : ℕ := 256

/-- `STARTS`. -/
def mostStarts : ℕ := 5

inductive LoadOutcome where
  /-- Loaded, and the shared memory its process holds, where the system says. -/
  | loaded (sharedMib : Option ℕ)
  | gaveUp

/-- As many as the overflow amounts to, and one more. -/
@[grind =]
def layersToTakeOff (placed : Fit) (shape : Shape) (ask : Ask) (sharedMib : ℕ) : ℕ :=
  if sharedMib < spilledMib ∨ placed.gpuLayers = 0 then 0
  else
    let layersTotal := max shape.layers 1 + 1
    let perLayer := u64 (shape.weightBytes ⌈/⌉ layersTotal + kvPerLayer shape ask)
    let spilled := u32 (u64 (sharedMib * mib) ⌈/⌉ max perLayer 1)
    min (u32 (spilled + 1)) placed.gpuLayers

/-- A quarter, and never fewer than two. -/
def layersToTakeOffAfterGivingUp (placed : Fit) : ℕ :=
  min (max (placed.gpuLayers / 4) 2) placed.gpuLayers

def fittedFlags (placed : Fit) (contextLen : ℕ) : List String :=
  ["-c", toString contextLen, "-ngl", toString placed.gpuLayers, "--device",
    placed.device.getD "none", "--load-mode", "none", "--no-host"]

/-- What the look keeps from one start to the next. -/
structure Look where
  placed : Fit
  starts : ℕ
  /-- `layer_caps` of the model. -/
  cap : Option ℕ
  /-- The trace, the last line first. -/
  traced : List String

section Looks

variable (F : Floats) (id : String) (shape : Shape) (hardware : Hardware) (ask : Ask)

/-- How many layers to take off, and why; nothing where the system does not say. -/
def Look.off (look : Look) : LoadOutcome → Option (ℕ × String)
  | .loaded sharedMib => sharedMib.map fun held =>
      (layersToTakeOff look.placed shape ask held,
        toString held ++ " MiB of it had spilled into system memory")
  | .gaveUp =>
      some (layersToTakeOffAfterGivingUp look.placed, "the engine gave up while loading")

/-- What is done once a start is over: the flags of the smaller plan to start again with, if any.
There is nothing at all where the model cannot be placed. -/
@[grind =]
def Look.after (look : Look) (outcome : LoadOutcome) : Option (Look × Option (List String)) :=
  match look.off shape ask outcome with
  | none => some (look, none)
  | some (off, why) =>
    if off = 0 ∨ mostStarts ≤ look.starts then some (look, none)
    else
      -- kept for the next load too, whatever comes of this one
      let cap := look.placed.gpuLayers - off
      (fit F shape hardware ask (some cap)).map fun placed =>
        ({ placed := placed
           starts := look.starts + 1
           cap := some cap
           traced := ("fit: " ++ id ++ " with " ++ toString look.placed.gpuLayers ++
             " layers on the card: " ++ why ++ "; now " ++ toString cap) :: look.traced },
          some (fittedFlags placed ask.contextLen))

/-- The look at a load's starts, when there is something on the card. -/
def lookAfterLoad (placed : Fit) (cap : Option ℕ) : Option Look :=
  if placed.gpuLayers = 0 then none else some ⟨placed, 1, cap, []⟩

/-- The look after one start after another. -/
@[grind =]
def Look.afterAll (look : Look) : List LoadOutcome → Option Look
  | [] => some look
  | outcome :: outcomes =>
    match look.after F id shape hardware ask outcome with
    | some (look, _) => look.afterAll outcomes
    | none => none

end Looks

/-- A spill that is counted within the bits: of less than 2^64 bytes and 2^32 layers. -/
structure Spill (shape : Shape) (ask : Ask) (sharedMib : ℕ) : Prop where
  bytes : sharedMib * mib < 2 ^ 64
  layers : sharedMib * mib ≤ (2 ^ 32 - 2) * (perLayer shape + kvPerLayer shape ask)

namespace Spill

variable {shape : Shape} {ask : Ask} {m : ℕ} (hspill : Spill shape ask m)

theorem pos_of_held (hheld : spilledMib ≤ m) : 0 < m * mib :=
  Nat.mul_pos (Nat.lt_of_lt_of_le (by decide) hheld) (by decide)

include hspill

/-- A layer takes something, where something spilled. -/
theorem each_pos (hheld : spilledMib ≤ m) : 0 < perLayer shape + kvPerLayer shape ask :=
  Nat.pos_of_mul_pos_left ((pos_of_held hheld).trans_le hspill.layers)

theorem count_le (hheld : spilledMib ≤ m) :
    m * mib ⌈/⌉ (perLayer shape + kvPerLayer shape ask) ≤ 2 ^ 32 - 2 := by
  rw [ceilDiv_le_iff_le_smul (hspill.each_pos hheld), smul_eq_mul, Nat.mul_comm (_ + _)]
  exact hspill.layers

end Spill

section Plans

variable {F : Floats} (id : String) {shape : Shape} {hardware : Hardware} {ask : Ask}

/-- A cap below a plan's layers is what the plan under it has. -/
theorem onCard_cap {cap : Option ℕ} {n : ℕ} (h : n ≤ onCard F shape hardware ask cap) :
    onCard F shape hardware ask (some n) = n := by
  rcases hcard : hardware.card with _ | gpu
  · rw [onCard_of_none hcard] at h ⊢
    exact (Nat.le_zero.mp h).symm
  · have hmost := h.trans (onCard_le_layersFor hcard cap)
    have htotal := h.trans (onCard_le_total cap)
    rw [onCard_of_some hcard, Option.elim_some, min_eq_right hmost, min_eq_left htotal]

theorem fit_gpuLayers {cap : Option ℕ} {plan : Fit}
    (h : fit F shape hardware ask cap = some plan) :
    plan.gpuLayers = onCard F shape hardware ask cap := by
  rw [fit] at h
  split at h
  · cases h
  · rw [← Option.some.inj h]

theorem layersToTakeOff_le (placed : Fit) (sharedMib : ℕ) :
    layersToTakeOff placed shape ask sharedMib ≤ placed.gpuLayers := by
  rw [layersToTakeOff]
  split_ifs
  · exact Nat.zero_le _
  · exact min_le_right _ _

theorem layersToTakeOff_eq_zero {placed : Fit} {m : ℕ}
    (h : m < spilledMib ∨ placed.gpuLayers = 0) : layersToTakeOff placed shape ask m = 0 :=
  if_pos h

theorem Look.off_le {look : Look} {outcome : LoadOutcome} {off : ℕ} {why : String}
    (h : look.off shape ask outcome = some (off, why)) : off ≤ look.placed.gpuLayers := by
  rcases outcome with (_ | held) | _
  · cases h
  · obtain ⟨rfl, -⟩ := Prod.mk.inj (Option.some.inj h)
    exact layersToTakeOff_le look.placed held
  · obtain ⟨rfl, -⟩ := Prod.mk.inj (Option.some.inj h)
    exact min_le_right _ _

namespace Within

variable (hwithin : Within shape hardware ask)

include hwithin

theorem fit_some (cap : Option ℕ) : ∃ plan, fit F shape hardware ask cap = some plan :=
  ⟨_, if_neg hwithin.layersTotal_pos.ne'⟩

/-- What is taken off for a spill: one more than it amounts to, or all. -/
theorem layersToTakeOff_eq {placed : Fit} {m : ℕ} (hspill : Spill shape ask m)
    (hheld : spilledMib ≤ m) (hlayers : placed.gpuLayers ≠ 0) :
    layersToTakeOff placed shape ask m =
      min (m * mib ⌈/⌉ (perLayer shape + kvPerLayer shape ask) + 1) placed.gpuLayers := by
  have heach : shape.weightBytes ⌈/⌉ (max shape.layers 1 + 1) = perLayer shape := by
    rw [perLayer, hwithin.layersTotal_eq]
  have hcount := hspill.count_le hheld
  rw [layersToTakeOff, if_neg (not_or.mpr ⟨not_lt.mpr hheld, hlayers⟩)]
  dsimp only
  rw [heach, u64_eq hwithin.each_lt, u64_eq hspill.bytes, max_eq_left (hspill.each_pos hheld), u32,
    u32, Nat.mod_eq_of_lt (by omega), Nat.mod_eq_of_lt (by omega)]

theorem layersToTakeOff_ne {placed : Fit} {m : ℕ} (hspill : Spill shape ask m)
    (hheld : spilledMib ≤ m) (hlayers : placed.gpuLayers ≠ 0) :
    layersToTakeOff placed shape ask m ≠ 0 := by
  rw [hwithin.layersToTakeOff_eq hspill hheld hlayers]
  exact (lt_min (Nat.succ_pos _) (Nat.pos_of_ne_zero hlayers)).ne'

/-- **One start settles a spill**: fewer layers by one more than the spill amounts to take less of
the card by at least the spill. The output layer has no cache, which is why one more is needed. -/
theorem settled {cap : Option ℕ} {n m q : ℕ} (hn : n = onCard F shape hardware ask cap)
    (hbyte : 0 < m * mib) (hq : m * mib ≤ (perLayer shape + kvPerLayer shape ask) * q)
    (hleft : q + 1 < n) :
    gpuBytes shape ask (n - (q + 1)) + m * mib ≤ gpuBytes shape ask n := by
  have htotal : n ≤ max shape.layers 1 + 1 := by
    rw [hn, ← hwithin.layersTotal_eq]
    exact onCard_le_total cap
  have hqpos : 0 < q := Nat.pos_of_mul_pos_left (hbyte.trans_le hq)
  rcases hcard : hardware.card with _ | gpu
  · rw [onCard_of_none hcard] at hn
    omega
  have hle : n - (q + 1) ≤ onCard F shape hardware ask cap := by omega
  have hafter := onCard_cap hle
  have hbefore := @gpu_eq F shape hardware ask hwithin cap
  have hthen := @gpu_eq F shape hardware ask hwithin (some (n - (q + 1)))
  rw [← hn] at hbefore
  rw [hafter] at hthen
  rw [(hbefore.2.2 gpu hcard).2 (by omega), (hthen.2.2 gpu hcard).2 (by omega), hbefore.1,
    hbefore.2.1, hthen.1, hthen.2.1]
  have hweight : perLayer shape * n =
      perLayer shape * (n - (q + 1)) + perLayer shape * (q + 1) := by
    rw [← Nat.mul_add]
    congr 1
    omega
  -- the layer taken off may be the output layer, which frees no cache
  have hkv : kvPerLayer shape ask * min (n - (q + 1)) shape.layers + kvPerLayer shape ask * q ≤
      kvPerLayer shape ask * min n shape.layers := by
    rw [← Nat.mul_add]
    exact Nat.mul_le_mul_left _ (by omega)
  have hmore : perLayer shape * q ≤ perLayer shape * (q + 1) :=
    Nat.mul_le_mul_left _ (Nat.le_succ q)
  rw [Nat.add_mul] at hq
  omega

end Within

/-! ### Over a load's starts -/

/-- The smaller plan an engine is started again with. -/
structure Lowered (shape : Shape) (ask : Ask) (look : Look) (outcome : LoadOutcome) (look' : Look)
    (flags : List String) : Prop where
  starts : look.starts < mostStarts ∧ look'.starts = look.starts + 1
  fewer : look'.placed.gpuLayers < look.placed.gpuLayers
  kept : look'.cap = some look'.placed.gpuLayers
  flags : flags = fittedFlags look'.placed ask.contextLen
  /-- What had spilled fits beside the smaller plan, unless that has nothing on the card. -/
  settled : ∀ m, outcome = .loaded (some m) → Spill shape ask m → spilledMib ≤ m ∧
    (look'.placed.gpuLayers = 0 ∨ gpuBytes shape ask look'.placed.gpuLayers + m * mib ≤
      gpuBytes shape ask look.placed.gpuLayers)

/-- A start is accepted as it is. -/
def Accepted (shape : Shape) (ask : Ask) (look : Look) (outcome : LoadOutcome) : Prop :=
  look.starts = mostStarts ∨ look.placed.gpuLayers = 0 ∨ outcome = .loaded none ∨
    ∃ m, outcome = .loaded (some m) ∧ (Spill shape ask m → m < spilledMib)

/-- What holds of the look from a load's first plan on. -/
structure Look.Since (F : Floats) (shape : Shape) (hardware : Hardware) (ask : Ask) (placed : Fit)
    (cap : Option ℕ) (look : Look) : Prop where
  planned : ∃ cap, look.placed.gpuLayers = onCard F shape hardware ask cap
  starts : 1 ≤ look.starts ∧ look.starts ≤ mostStarts
  layers : look.placed.gpuLayers + look.starts ≤ placed.gpuLayers + 1
  kept : look.cap = if look.starts = 1 then cap else some look.placed.gpuLayers

/-- Where there is nothing to take off, or no start is left, the start is accepted. -/
theorem Look.after_accepted {look : Look} {outcome : LoadOutcome}
    (h : ∀ off why, look.off shape ask outcome = some (off, why) →
      off = 0 ∨ mostStarts ≤ look.starts) :
    look.after F id shape hardware ask outcome = some (look, none) := by
  rw [Look.after]
  rcases hoff : look.off shape ask outcome with _ | ⟨off, why⟩
  · rfl
  · exact if_pos (h off why hoff)

theorem Look.after_lowered (hwithin : Within shape hardware ask) {look : Look}
    {cap : Option ℕ} (hplanned : look.placed.gpuLayers = onCard F shape hardware ask cap)
    {outcome : LoadOutcome} {off : ℕ} {why : String}
    (hoff : look.off shape ask outcome = some (off, why)) (hpos : off ≠ 0)
    (hstarts : look.starts < mostStarts) :
    ∃ look', look.after F id shape hardware ask outcome =
        some (look', some (fittedFlags look'.placed ask.contextLen)) ∧
      look'.placed.gpuLayers = look.placed.gpuLayers - off ∧
      look'.placed.gpuLayers =
        onCard F shape hardware ask (some (look.placed.gpuLayers - off)) ∧
      look'.starts = look.starts + 1 ∧ look'.cap = some (look.placed.gpuLayers - off) := by
  obtain ⟨placed, hplaced⟩ := hwithin.fit_some (F := F) (some (look.placed.gpuLayers - off))
  have hlayers := fit_gpuLayers hplaced
  have hle : look.placed.gpuLayers - off ≤ onCard F shape hardware ask cap := by omega
  have hcap := onCard_cap hle
  rw [Look.after, hoff]
  dsimp only
  rw [if_neg (not_or.mpr ⟨hpos, not_le.mpr hstarts⟩), hplaced]
  exact ⟨_, rfl, hlayers.trans hcap, hlayers, rfl, rfl⟩

/-- One look: the start is accepted, or the engine is started with a smaller plan. -/
theorem Look.Since.after (hwithin : Within shape hardware ask) {placed : Fit} {cap : Option ℕ}
    {look : Look} (hsince : look.Since F shape hardware ask placed cap) (outcome : LoadOutcome) :
    ∃ look' answer, look.after F id shape hardware ask outcome = some (look', answer) ∧
      look'.Since F shape hardware ask placed cap ∧
      (answer = none ∧ look' = look ∧ Accepted shape ask look outcome ∨
        ∃ flags, answer = some flags ∧ Lowered shape ask look outcome look' flags) := by
  by_cases hstarts : mostStarts ≤ look.starts
  · exact ⟨look, none, Look.after_accepted id fun _ _ _ => .inr hstarts, hsince,
      .inl ⟨rfl, rfl, .inl (hsince.starts.2.antisymm hstarts)⟩⟩
  rw [not_le] at hstarts
  obtain ⟨planCap, hplanned⟩ := hsince.planned
  rcases hoff : look.off shape ask outcome with _ | ⟨off, why⟩
  · -- the system does not say what the process holds
    refine ⟨look, none, Look.after_accepted id fun off why h => ?_, hsince,
      .inl ⟨rfl, rfl, .inr (.inr (.inl ?_))⟩⟩
    · rw [hoff] at h
      cases h
    · rcases outcome with (_ | held) | _
      · rfl
      · cases hoff
      · cases hoff
  by_cases hzero : off = 0
  · refine ⟨look, none, Look.after_accepted id fun off' why' h => ?_, hsince,
      .inl ⟨rfl, rfl, ?_⟩⟩
    · rw [hoff] at h
      exact .inl ((Prod.mk.inj (Option.some.inj h)).1.symm.trans hzero)
    · rcases outcome with (_ | held) | _
      · cases hoff
      · have htake := (Prod.mk.inj (Option.some.inj hoff)).1
        by_cases hlayers : look.placed.gpuLayers = 0
        · exact .inr (.inl hlayers)
        refine .inr (.inr (.inr ⟨held, rfl, fun hspill => ?_⟩))
        by_contra hheld
        exact hwithin.layersToTakeOff_ne hspill (not_lt.mp hheld) hlayers (htake.trans hzero)
      · have htake := (Prod.mk.inj (Option.some.inj hoff)).1
        rw [layersToTakeOffAfterGivingUp] at htake
        exact .inr (.inl (by omega))
  · obtain ⟨look', hafter, hlayers, hcap, hnext, hkept⟩ :=
      Look.after_lowered id hwithin hplanned hoff hzero hstarts
    have hle := Look.off_le hoff
    have hsum := hsince.layers
    refine ⟨look', _, hafter, ⟨⟨_, hcap⟩, ⟨by omega, by omega⟩, by omega, ?_⟩, .inr ⟨_, rfl, ?_⟩⟩
    · rw [if_neg (by have := hsince.starts.1; omega), hkept, hlayers]
    · refine ⟨⟨hstarts, hnext⟩, by omega, by rw [hkept, hlayers], rfl, ?_⟩
      rintro m rfl hspill
      obtain ⟨htake, -⟩ := Prod.mk.inj (Option.some.inj hoff)
      have hheld : spilledMib ≤ m :=
        not_lt.mp fun hlt => hzero (htake.symm.trans (layersToTakeOff_eq_zero (.inl hlt)))
      have hmin := htake.symm.trans (hwithin.layersToTakeOff_eq hspill hheld (by omega))
      refine ⟨hheld, ?_⟩
      rcases Nat.lt_or_ge (m * mib ⌈/⌉ (perLayer shape + kvPerLayer shape ask) + 1)
        look.placed.gpuLayers with hleft | hall
      -- the overflow's layers and one more are taken off, or all there are
      · rw [hlayers, hmin, min_eq_left hleft.le]
        refine .inr (hwithin.settled hplanned (Spill.pos_of_held hheld) ?_ hleft)
        rw [Nat.mul_comm (_ + _)]
        exact le_mul_divCeil _ (hspill.each_pos hheld)
      · exact .inl (by rw [hlayers, hmin, min_eq_right hall, Nat.sub_self])

theorem Look.Since.afterAll (hwithin : Within shape hardware ask) {placed : Fit} {cap : Option ℕ}
    {look : Look} (hsince : look.Since F shape hardware ask placed cap)
    (outcomes : List LoadOutcome) :
    ∃ look', look.afterAll F id shape hardware ask outcomes = some look' ∧
      look'.Since F shape hardware ask placed cap := by
  induction outcomes generalizing look with
  | nil => exact ⟨look, rfl, hsince⟩
  | cons outcome outcomes ih =>
    obtain ⟨next, answer, hafter, hnext, -⟩ := hsince.after id hwithin outcome
    obtain ⟨last, hlast, hkept⟩ := ih hnext
    refine ⟨last, ?_, hkept⟩
    rw [Look.afterAll, hafter]
    exact hlast

theorem lookAfterLoad_since {placed : Fit} {cap : Option ℕ} {first : Look}
    (hplaced : placed.gpuLayers = onCard F shape hardware ask cap)
    (hfirst : lookAfterLoad placed cap = some first) :
    first.Since F shape hardware ask placed cap := by
  rw [lookAfterLoad] at hfirst
  split_ifs at hfirst
  rw [← Option.some.inj hfirst]
  exact ⟨⟨cap, hplaced⟩, ⟨le_refl 1, Nat.succ_le_succ (Nat.zero_le 4)⟩, le_refl _, rfl⟩

end Plans

/-- **A load comes to rest, with what was learnt kept**: whatever its starts come to, at most five
are made, each after the first with fewer layers than the one before; the cap kept for the next load
is the last plan's layers; a start is accepted only when it did not spill, or nothing is on the
card, or five were made; and the plan after a spill takes less of the card by at least what had
spilled, or nothing of it. -/
theorem replanned (F : Floats) (id : String) (shape : Shape) (hardware : Hardware) (ask : Ask)
    (hwithin : Within shape hardware ask) (placed : Fit) (cap : Option ℕ)
    (hplaced : placed.gpuLayers = onCard F shape hardware ask cap) (first : Look)
    (hfirst : lookAfterLoad placed cap = some first) (outcomes : List LoadOutcome) :
    ∃ look, first.afterAll F id shape hardware ask outcomes = some look ∧
      look.starts ≤ mostStarts ∧ look.placed.gpuLayers + look.starts ≤ placed.gpuLayers + 1 ∧
      look.cap = (if look.starts = 1 then cap else some look.placed.gpuLayers) ∧
      ∀ outcome, ∃ look' answer, look.after F id shape hardware ask outcome = some (look', answer) ∧
        (answer = none ∧ look' = look ∧ Accepted shape ask look outcome ∨
          ∃ flags, answer = some flags ∧ Lowered shape ask look outcome look' flags) := by
  obtain ⟨look, hall, hsince⟩ :=
    (lookAfterLoad_since hplaced hfirst).afterAll id hwithin outcomes
  refine ⟨look, hall, hsince.starts.2, hsince.layers, hsince.kept, fun outcome => ?_⟩
  obtain ⟨look', answer, hafter, -, hcases⟩ := hsince.after id hwithin outcome
  exact ⟨look', answer, hafter, hcases⟩

/-! ### An engine that gives up at every start -/

/-- What a giving up leaves on the card. -/
def leftAfterGivingUp (n : ℕ) : ℕ :=
  n - min (max (n / 4) 2) n

/-- Four givings-up take everything off exactly where there were eight layers or fewer. -/
theorem leftAfterGivingUp_four (n : ℕ) : leftAfterGivingUp^[4] n = 0 ↔ n ≤ 8 := by
  have hnone : ∀ n, leftAfterGivingUp n = 0 ↔ n ≤ 2 := fun n => by rw [leftAfterGivingUp]; omega
  have htwo : ∀ n, leftAfterGivingUp n ≤ 2 ↔ n ≤ 4 := fun n => by rw [leftAfterGivingUp]; omega
  have hfour : ∀ n, leftAfterGivingUp n ≤ 4 ↔ n ≤ 6 := fun n => by rw [leftAfterGivingUp]; omega
  have hsix : ∀ n, leftAfterGivingUp n ≤ 6 ↔ n ≤ 8 := fun n => by rw [leftAfterGivingUp]; omega
  change leftAfterGivingUp (leftAfterGivingUp (leftAfterGivingUp (leftAfterGivingUp n))) = 0 ↔ _
  rw [hnone, htwo, hfour, hsix]

section GivingUp

variable {F : Floats} (id : String) {shape : Shape} {hardware : Hardware} {ask : Ask}

/-- While starts are left, a giving up leaves so many layers. -/
theorem Look.after_gaveUp (hwithin : Within shape hardware ask) {look : Look} {cap : Option ℕ}
    (hplanned : look.placed.gpuLayers = onCard F shape hardware ask cap)
    (hstarts : look.starts < mostStarts) :
    ∃ look' answer, look.after F id shape hardware ask .gaveUp = some (look', answer) ∧
      look'.placed.gpuLayers = leftAfterGivingUp look.placed.gpuLayers ∧
      (∃ cap, look'.placed.gpuLayers = onCard F shape hardware ask cap) ∧
      (look'.starts = look.starts + 1 ∨ look'.placed.gpuLayers = 0) ∧
      look'.starts ≤ look.starts + 1 := by
  by_cases hzero : look.placed.gpuLayers = 0
  · refine ⟨look, none, Look.after_accepted id fun off why h => .inl ?_, ?_, ⟨cap, hplanned⟩,
      .inr hzero, Nat.le_succ _⟩
    · have hle := Look.off_le h
      omega
    · rw [leftAfterGivingUp, hzero]
      rfl
  · have hoff : look.off shape ask .gaveUp =
        some (layersToTakeOffAfterGivingUp look.placed, "the engine gave up while loading") := rfl
    have hpos : layersToTakeOffAfterGivingUp look.placed ≠ 0 := by
      rw [layersToTakeOffAfterGivingUp]
      omega
    obtain ⟨look', hafter, hlayers, hcap, hnext, -⟩ :=
      Look.after_lowered id hwithin hplanned hoff hpos hstarts
    exact ⟨look', _, hafter, hlayers, ⟨_, hcap⟩, .inl hnext, hnext.le⟩

theorem Look.afterAll_gaveUp (hwithin : Within shape hardware ask) (k : ℕ) {look : Look}
    {cap : Option ℕ} (hplanned : look.placed.gpuLayers = onCard F shape hardware ask cap)
    (hstarts : look.starts + k ≤ mostStarts) :
    ∃ look', look.afterAll F id shape hardware ask (List.replicate k .gaveUp) = some look' ∧
      look'.placed.gpuLayers = leftAfterGivingUp^[k] look.placed.gpuLayers ∧
      (look'.starts = look.starts + k ∨ look'.placed.gpuLayers = 0) := by
  induction k generalizing look cap with
  | zero => exact ⟨look, rfl, rfl, .inl rfl⟩
  | succ k ih =>
    obtain ⟨next, answer, hafter, hlayers, ⟨cap', hnext⟩, hone, hmost⟩ :=
      Look.after_gaveUp id hwithin hplanned (by omega)
    obtain ⟨last, hlast, hleft, hcount⟩ := ih hnext (by omega)
    refine ⟨last, ?_, ?_, ?_⟩
    · rw [List.replicate_succ, Look.afterAll, hafter]
      exact hlast
    · rw [hleft, hlayers, Function.iterate_succ_apply]
    · rcases hcount with hcount | hcount
      · rcases hone with hone | hone
        · exact .inl (by omega)
        · -- nothing is left after nothing
          have hfixed : leftAfterGivingUp 0 = 0 := rfl
          exact .inr (by rw [hleft, hone, Function.iterate_fixed hfixed])
      · exact .inr hcount

/-- Once five starts were made, or nothing is on the card, a giving up is the last word. -/
theorem Look.afterAll_rest {look : Look}
    (h : mostStarts ≤ look.starts ∨ look.placed.gpuLayers = 0) (k : ℕ) :
    look.afterAll F id shape hardware ask (List.replicate k .gaveUp) = some look := by
  have hrest : look.after F id shape hardware ask .gaveUp = some (look, none) :=
    Look.after_accepted id fun off why hoff => by
      have hle := Look.off_le hoff
      omega
  induction k with
  | zero => rfl
  | succ k ih =>
    rw [List.replicate_succ, Look.afterAll, hrest]
    exact ih

theorem Look.afterAll_append (look : Look) (outcomes outcomes' : List LoadOutcome) :
    look.afterAll F id shape hardware ask (outcomes ++ outcomes') =
      (look.afterAll F id shape hardware ask outcomes).bind
        (·.afterAll F id shape hardware ask outcomes') := by
  induction outcomes generalizing look with
  | nil => rfl
  | cons outcome outcomes ih =>
    rw [List.cons_append, Look.afterAll, Look.afterAll]
    rcases look.after F id shape hardware ask outcome with _ | ⟨next, answer⟩
    · rfl
    · exact ih next

end GivingUp

/-- **The processor alone is not always the last**: an engine that gives up at every start is last
started with what four givings-up leave of its first plan, which is nothing on the card exactly
where that plan had eight layers there or fewer. -/
theorem given_up_throughout (F : Floats) (id : String) (shape : Shape) (hardware : Hardware)
    (ask : Ask) (hwithin : Within shape hardware ask) (placed : Fit) (cap : Option ℕ)
    (hplaced : placed.gpuLayers = onCard F shape hardware ask cap) (first : Look)
    (hfirst : lookAfterLoad placed cap = some first) (times : ℕ) (htimes : 4 ≤ times) :
    ∃ last, first.afterAll F id shape hardware ask (List.replicate times .gaveUp) = some last ∧
      last.placed.gpuLayers = leftAfterGivingUp^[4] placed.gpuLayers ∧
      (last.placed.gpuLayers = 0 ↔ placed.gpuLayers ≤ 8) := by
  have hfirst' : first.placed = placed ∧ first.starts = 1 := by
    rw [lookAfterLoad] at hfirst
    split_ifs at hfirst
    rw [← Option.some.inj hfirst]
    exact ⟨rfl, rfl⟩
  have hplanned : first.placed.gpuLayers = onCard F shape hardware ask cap := by
    rw [hfirst'.1, hplaced]
  obtain ⟨last, hlast, hleft, hrest⟩ := Look.afterAll_gaveUp id hwithin 4 hplanned
    (by rw [hfirst'.2]; exact le_refl 5)
  rw [hfirst'.1] at hleft
  refine ⟨last, ?_, hleft, by rw [hleft, leftAfterGivingUp_four]⟩
  obtain ⟨more, rfl⟩ := Nat.exists_eq_add_of_le htimes
  have hstays : mostStarts ≤ last.starts ∨ last.placed.gpuLayers = 0 :=
    hrest.imp_left fun h => by
      rw [h, hfirst'.2]
      exact le_refl 5
  rw [List.replicate_add, Look.afterAll_append, hlast, Option.bind_some,
    Look.afterAll_rest id hstays more]

/-! ### A small model on a small card -/

/-- Every layer goes to the card. -/
theorem smallCard_placed : onCard shares smallModel smallCard ⟨8192, false⟩ none = 29 := by
  decide

/-- Such a plan. -/
def smallPlan : Fit :=
  ⟨29, 29, some "Vulkan1", 3115, 0, .runsWell, (10, 20), false, ""⟩

/-- A giving up, and a spill of 1,022 MiB. -/
theorem smallModel_replanned : ∃ look, (Look.mk smallPlan 1 none []).afterAll shares "small"
    smallModel smallCard ⟨8192, false⟩ [.gaveUp, .loaded (some 1022)] = some look ∧
    look.starts ≤ mostStarts ∧ look.placed.gpuLayers + look.starts ≤ 30 ∧
      look.cap = (if look.starts = 1 then none else some look.placed.gpuLayers) := by
  obtain ⟨look, hall, hstarts, hlayers, hcap, -⟩ := replanned shares "small" smallModel smallCard ⟨8192, false⟩
    smallModel_within smallPlan none smallCard_placed.symm ⟨smallPlan, 1, none, []⟩ rfl
    [.gaveUp, .loaded (some 1022)]
  exact ⟨look, hall, hstarts, hlayers, hcap⟩

/-- It gives up five times with layers on the card to the last. -/
theorem smallModel_given_up : ∃ last, (Look.mk smallPlan 1 none []).afterAll shares "small"
    smallModel smallCard ⟨8192, false⟩ (List.replicate 5 .gaveUp) = some last ∧
    last.placed.gpuLayers ≠ 0 := by
  obtain ⟨last, hall, -, hiff⟩ := given_up_throughout shares "small" smallModel smallCard
    ⟨8192, false⟩ smallModel_within smallPlan none smallCard_placed.symm ⟨smallPlan, 1, none, []⟩ rfl
    5 (by decide)
  exact ⟨last, hall, fun h => absurd (hiff.mp h) (by decide)⟩

end LocalSpace.Placing
