import LocalSpace.Proto
import Mathlib.Algebra.Order.Floor.Div

/-!
# How a model sits on a computer

`fit.rs`: how many of a model's layers go to the graphics card, what the plan takes there and what
stays in system memory, and where a picture file goes beside it. The layers are counted from sizes
rounded up, so what they take on the card stays below what the card has left; counts of bytes are of
64 bits and wrap around beyond. What is computed in floating point (the share of a memory kept free,
the speed) is a parameter.
-/

namespace LocalSpace.Placing

/-- One MiB: `MIB`. -/
def mib : ℕ := 1024 * 1024

def gpuMarginFloorMib : ℕ := 384

def gpuComputeMib : ℕ := 256

def ramReserveFloorMib : ℕ := 4 * 1024

def inAChatMib : ℕ := 2458

def pictureFileWorkMib : ℕ := 256

def pictureReadingMib : ℕ := 600

def picturesStillFreeMib : ℕ := 1536

def readingWordsPerSecond : ℕ := 4

/-- What a 64-bit sum or product is. -/
def u64 (n : ℕ) : ℕ :=
  n % 2 ^ 64

/-- What a 32-bit sum is, and a cast to 32 bits. -/
def u32 (n : ℕ) : ℕ :=
  n % 2 ^ 32

/-- A model's own numbers. -/
structure Shape where
  weightBytes : ℕ
  activeBytes : ℕ
  layers : ℕ
  kvBytesPerTokenFp16 : ℕ
  /-- The picture file. -/
  ramOnlyBytes : ℕ

structure Gpu where
  device : String
  totalMib : ℕ
  freeMib : ℕ
  usedByOthersMib : Option ℕ
  integrated : Bool
  /-- Whether the table knows the card's bandwidth. -/
  known : Bool

structure Hardware where
  gpus : List Gpu
  ramTotalMib : ℕ
  ramFreeMib : ℕ

structure Ask where
  contextLen : ℕ
  kvQuantized : Bool

inductive Verdict where
  | runsWell | works | tooSlow | willNotFit
  deriving DecidableEq

/-- What is computed in floating point. -/
structure Floats where
  /-- `GPU_MARGIN_SHARE` of a card. -/
  gpuMarginShare : ℕ → ℕ
  /-- `RAM_RESERVE_SHARE` of the system's memory. -/
  ramReserveShare : ℕ → ℕ
  /-- The words a second shown of so many layers on the card, of a model that fits or not. -/
  shown : Shape → Hardware → ℕ → Bool → ℕ × ℕ
  /-- How much of a model so many layers of so many are, in words. -/
  part : ℕ → ℕ → String

structure Fit where
  gpuLayers : ℕ
  layersTotal : ℕ
  device : Option String
  gpuMib : ℕ
  ramMib : ℕ
  verdict : Verdict
  wordsPerSecond : ℕ × ℕ
  atLeast : Bool
  placement : String

/-- The verdict of a model that fits, from what is shown of its speed. -/
def Verdict.ofWhatIsShown (shown : ℕ × ℕ) (atLeast : Bool) : Verdict :=
  let least := if atLeast then shown.2 else shown.1
  if readingWordsPerSecond < least then .runsWell
  else if readingWordsPerSecond ≤ shown.2 then .works
  else .tooSlow

namespace Hardware

/-- Of the cards with memory of their own the last of the largest, else the first card. -/
def gpu (hardware : Hardware) : Option Gpu :=
  ((hardware.gpus.filter fun gpu => !gpu.integrated).foldl (fun best gpu =>
    if best.any fun b => gpu.totalMib < b.totalMib then best else some gpu) none).or
    hardware.gpus.head?

/-- A card of its own is worth planning for. -/
def card (hardware : Hardware) : Option Gpu :=
  hardware.gpu.filter fun gpu => !gpu.integrated

end Hardware

section Memory

variable (F : Floats)

def usableGpuMib (gpu : Gpu) : ℕ :=
  min (min gpu.freeMib gpu.totalMib) (gpu.totalMib - gpu.usedByOthersMib.getD 0) -
    max gpuMarginFloorMib (F.gpuMarginShare gpu.totalMib)

def ramReserveMib (hardware : Hardware) : ℕ :=
  max ramReserveFloorMib (F.ramReserveShare hardware.ramTotalMib)

def usableRamMib (hardware : Hardware) : ℕ :=
  hardware.ramTotalMib - ramReserveMib F hardware

end Memory

section Sizes

variable (shape : Shape) (ask : Ask)

/-- The repeating layers and the output layer. -/
def layersTotal : ℕ :=
  u32 (max shape.layers 1 + 1)

def perLayer : ℕ :=
  shape.weightBytes ⌈/⌉ layersTotal shape

def kvPerToken : ℕ :=
  if ask.kvQuantized then shape.kvBytesPerTokenFp16 / 2 else shape.kvBytesPerTokenFp16

def kvBytes : ℕ :=
  u64 (kvPerToken shape ask * ask.contextLen)

def kvPerLayer : ℕ :=
  kvBytes shape ask ⌈/⌉ max shape.layers 1

def gpuWeight (onCard : ℕ) : ℕ :=
  u64 (perLayer shape * onCard)

/-- The cache of a layer lives where the layer does; the output layer has none. -/
def gpuKv (onCard : ℕ) : ℕ :=
  u64 (kvPerLayer shape ask * min onCard shape.layers)

def gpuBytes (onCard : ℕ) : ℕ :=
  if 0 < onCard then
    u64 (u64 (gpuWeight shape onCard + gpuKv shape ask onCard) + gpuComputeMib * mib)
  else 0

def ramBytes (onCard : ℕ) : ℕ :=
  u64 (u64 (shape.weightBytes - gpuWeight shape onCard +
    (kvBytes shape ask - gpuKv shape ask onCard)) + shape.ramOnlyBytes)

end Sizes

section Plan

variable (F : Floats) (shape : Shape) (hardware : Hardware) (ask : Ask)

/-- The most layers a card may be given. -/
def layersFor (gpu : Gpu) : ℕ :=
  let usable := u64 (usableGpuMib F gpu * mib)
  let fixed := gpuComputeMib * mib
  if fixed < usable then
    min (u32 ((usable - fixed) / max (u64 (perLayer shape + kvPerLayer shape ask)) 1))
      (layersTotal shape)
  else 0

def onCard (gpuLayerCap : Option ℕ) : ℕ :=
  match hardware.card with
  | some gpu =>
    let gpuLayers := layersFor F shape ask gpu
    min (gpuLayerCap.elim gpuLayers (min gpuLayers)) (layersTotal shape)
  | none => 0

/-- Place a model on a computer; nothing where the layers' count comes to none. -/
@[grind =]
def fit (gpuLayerCap : Option ℕ) : Option Fit :=
  if layersTotal shape = 0 then none
  else
    let onCard := onCard F shape hardware ask gpuLayerCap
    let ramMib := ramBytes shape ask onCard / mib
    let fits := decide (ramMib ≤ usableRamMib F hardware)
    let atLeast := hardware.card.any fun gpu => decide (0 < onCard) && !gpu.known
    let shown := F.shown shape hardware onCard fits
    some {
      gpuLayers := onCard
      layersTotal := layersTotal shape
      device := (hardware.card.filter fun _ => 0 < onCard).map Gpu.device
      gpuMib := gpuBytes shape ask onCard / mib
      ramMib := ramMib
      verdict := if fits then .ofWhatIsShown shown atLeast else .willNotFit
      wordsPerSecond := shown
      atLeast := atLeast
      placement :=
        if !fits then "It needs more memory than this computer has."
        else if onCard = layersTotal shape then "All of it fits in the graphics memory."
        else if 0 < onCard then F.part onCard (layersTotal shape) ++
          " in the graphics memory; the rest runs from system memory, which is slower."
        else if hardware.card.isSome then
          "It does not fit in the graphics memory, so it runs from system memory."
        else "It runs on the processor, from system memory." }

end Plan

inductive PictureFilePlace where
  | card
  | processor
  | leftOut (needsMib : ℕ)

/-- Where a picture file goes beside a plan that counts it in system memory. -/
def pictureFilePlace (F : Floats) (placed : Fit) (hardware : Hardware) (fileBytes : ℕ) :
    PictureFilePlace :=
  let fileMib := fileBytes ⌈/⌉ mib
  if hardware.card.any fun gpu => placed.gpuLayers = placed.layersTotal ∧
      placed.gpuMib + fileMib + pictureFileWorkMib ≤ usableGpuMib F gpu then .card
  else
    let needed := placed.ramMib + inAChatMib + pictureReadingMib + picturesStillFreeMib
    if needed ≤ hardware.ramFreeMib then .processor
    else .leftOut (needed - hardware.ramFreeMib)

/-- The plan with the picture file counted where it goes. -/
def Fit.withPictureFile (plan : Fit) (place : PictureFilePlace) (fileBytes : ℕ) : Fit :=
  let fileMib := fileBytes ⌈/⌉ mib
  match place with
  | .card => { plan with
      ramMib := plan.ramMib - fileMib
      gpuMib := plan.gpuMib + (fileMib + pictureFileWorkMib) }
  | .processor => plan
  | .leftOut _ => { plan with ramMib := plan.ramMib - fileMib }

/-! ### What the numbers come to -/

/-- The counts that stay within their bits: the layers, and the bytes the model asks for. -/
structure Within (shape : Shape) (hardware : Hardware) (ask : Ask) : Prop where
  layers : max shape.layers 1 + 1 < 2 ^ 32
  bytes : shape.weightBytes + kvPerToken shape ask * ask.contextLen + shape.ramOnlyBytes < 2 ^ 64

theorem u64_eq {n : ℕ} (h : n < 2 ^ 64) : u64 n = n :=
  Nat.mod_eq_of_lt h

theorem le_mul_divCeil (a : ℕ) {n : ℕ} (h : 0 < n) : a ≤ a ⌈/⌉ n * n := by
  have hle := le_smul_ceilDiv (b := a) h
  rwa [smul_eq_mul, mul_comm] at hle

theorem divCeil_le (a : ℕ) {n : ℕ} (h : 0 < n) : a ⌈/⌉ n ≤ a := by
  rw [ceilDiv_le_iff_le_smul h, smul_eq_mul]
  exact Nat.le_mul_of_pos_left a h

/-- One cap is no higher than another, where no cap is the highest. -/
def Lower (cap cap' : Option ℕ) : Prop :=
  ∀ n, cap' = some n → ∃ m, cap = some m ∧ m ≤ n

theorem capped_le (most : ℕ) (cap : Option ℕ) : cap.elim most (min most) ≤ most := by
  rcases cap with _ | cap
  · exact le_refl most
  · exact min_le_left most cap

theorem capped_mono (most : ℕ) {cap cap' : Option ℕ} (h : Lower cap cap') :
    cap.elim most (min most) ≤ cap'.elim most (min most) := by
  rcases cap' with _ | n
  · exact capped_le most cap
  · obtain ⟨m, rfl, hle⟩ := h n rfl
    exact min_le_min_left most hle

section Bounds

variable {F : Floats} {shape : Shape} {hardware : Hardware} {ask : Ask}

theorem onCard_of_none (hcard : hardware.card = none) (cap : Option ℕ) :
    onCard F shape hardware ask cap = 0 := by
  simp only [onCard, hcard]

theorem onCard_of_some {gpu : Gpu} (hcard : hardware.card = some gpu) (cap : Option ℕ) :
    onCard F shape hardware ask cap =
      min (cap.elim (layersFor F shape ask gpu) (min (layersFor F shape ask gpu)))
        (layersTotal shape) := by
  simp only [onCard, hcard]

theorem onCard_le_total (cap : Option ℕ) :
    onCard F shape hardware ask cap ≤ layersTotal shape := by
  rcases hcard : hardware.card with _ | gpu
  · rw [onCard_of_none hcard]
    exact Nat.zero_le _
  · rw [onCard_of_some hcard]
    exact min_le_right _ _

theorem onCard_le_cap (cap : ℕ) : onCard F shape hardware ask (some cap) ≤ cap := by
  rcases hcard : hardware.card with _ | gpu
  · rw [onCard_of_none hcard]
    exact Nat.zero_le _
  · rw [onCard_of_some hcard, Option.elim_some]
    exact (min_le_left _ _).trans (min_le_right _ _)

/-- No more go to a card than it may be given. -/
theorem onCard_le_layersFor {gpu : Gpu} (hcard : hardware.card = some gpu) (cap : Option ℕ) :
    onCard F shape hardware ask cap ≤ layersFor F shape ask gpu := by
  rw [onCard_of_some hcard]
  exact (min_le_left _ _).trans (capped_le _ _)

theorem onCard_mono {cap cap' : Option ℕ} (h : Lower cap cap') :
    onCard F shape hardware ask cap ≤ onCard F shape hardware ask cap' := by
  rcases hcard : hardware.card with _ | gpu
  · rw [onCard_of_none hcard, onCard_of_none hcard]
  · rw [onCard_of_some hcard, onCard_of_some hcard]
    exact min_le_min_right _ (capped_mono _ h)

namespace Within

variable (hwithin : Within shape hardware ask)

include hwithin

theorem layersTotal_eq : layersTotal shape = max shape.layers 1 + 1 :=
  Nat.mod_eq_of_lt hwithin.layers

theorem layersTotal_pos : 0 < layersTotal shape := by
  rw [hwithin.layersTotal_eq]
  exact Nat.succ_pos _

theorem kvBytes_eq : kvBytes shape ask = kvPerToken shape ask * ask.contextLen := by
  have hbytes := hwithin.bytes
  exact u64_eq (by omega)

theorem each_lt : perLayer shape + kvPerLayer shape ask < 2 ^ 64 := by
  have hweight : perLayer shape ≤ shape.weightBytes := divCeil_le _ hwithin.layersTotal_pos
  have hkv : kvPerLayer shape ask ≤ kvBytes shape ask :=
    divCeil_le _ (lt_max_of_lt_right Nat.one_pos)
  have hbytes := hwithin.bytes
  rw [← hwithin.kvBytes_eq] at hbytes
  omega

/-- What the layers and their caches take on the card, with the engine's buffers, is within its
room, as it is counted. -/
theorem layers_le {gpu : Gpu} (hcard : hardware.card = some gpu) {cap : Option ℕ}
    (hsome : 0 < onCard F shape hardware ask cap) :
    (perLayer shape + kvPerLayer shape ask) * onCard F shape hardware ask cap +
      gpuComputeMib * mib ≤ u64 (usableGpuMib F gpu * mib) := by
  have hmost := @onCard_le_layersFor F shape _ ask _ hcard cap
  generalize onCard F shape hardware ask cap = n at hsome hmost ⊢
  rw [layersFor, u64_eq hwithin.each_lt] at hmost
  split_ifs at hmost with hlt
  · -- the cast to 32 bits only ever lowers the count
    have hdiv : n ≤ (u64 (usableGpuMib F gpu * mib) - gpuComputeMib * mib) /
        max (perLayer shape + kvPerLayer shape ask) 1 :=
      (hmost.trans (min_le_left _ _)).trans (Nat.mod_le _ _)
    have hmul := (Nat.le_div_iff_mul_le (lt_max_of_lt_right Nat.one_pos)).mp hdiv
    have heach : n * (perLayer shape + kvPerLayer shape ask) ≤
        n * max (perLayer shape + kvPerLayer shape ask) 1 :=
      Nat.mul_le_mul_left n (le_max_left _ _)
    rw [mul_comm]
    omega
  · omega

/-- So many layers' weights and caches as they are: nothing wraps around. -/
theorem gpu_eq {cap : Option ℕ} :
    gpuWeight shape (onCard F shape hardware ask cap) =
        perLayer shape * onCard F shape hardware ask cap ∧
      gpuKv shape ask (onCard F shape hardware ask cap) =
        kvPerLayer shape ask * min (onCard F shape hardware ask cap) shape.layers ∧
      ∀ gpu, hardware.card = some gpu →
        gpuBytes shape ask (onCard F shape hardware ask cap) ≤ usableGpuMib F gpu * mib ∧
        (0 < onCard F shape hardware ask cap →
          gpuBytes shape ask (onCard F shape hardware ask cap) =
            gpuWeight shape (onCard F shape hardware ask cap) +
              gpuKv shape ask (onCard F shape hardware ask cap) + gpuComputeMib * mib) := by
  rcases Nat.eq_zero_or_pos (onCard F shape hardware ask cap) with hnone | hsome
  · rw [hnone]
    refine ⟨rfl, ?_, fun gpu _ => ⟨Nat.zero_le _, fun h => absurd h (lt_irrefl 0)⟩⟩
    rw [gpuKv, Nat.zero_min, mul_zero]
    rfl
  · rcases hcard : hardware.card with _ | gpu
    · rw [onCard_of_none hcard] at hsome
      exact absurd hsome (lt_irrefl 0)
    · have hle := hwithin.layers_le hcard hsome
      have hroom : u64 (usableGpuMib F gpu * mib) < 2 ^ 64 := Nat.mod_lt _ (by decide)
      have hcounted : u64 (usableGpuMib F gpu * mib) ≤ usableGpuMib F gpu * mib := Nat.mod_le _ _
      generalize onCard F shape hardware ask cap = n at hsome hle ⊢
      have hkv : kvPerLayer shape ask * min n shape.layers ≤ kvPerLayer shape ask * n :=
        Nat.mul_le_mul_left _ (min_le_left _ _)
      rw [add_mul] at hle
      have hweight : gpuWeight shape n = perLayer shape * n := u64_eq (by omega)
      have hkv' : gpuKv shape ask n = kvPerLayer shape ask * min n shape.layers :=
        u64_eq (by omega)
      have hbytes : gpuBytes shape ask n =
          gpuWeight shape n + gpuKv shape ask n + gpuComputeMib * mib := by
        have hlayers : u64 (perLayer shape * n + kvPerLayer shape ask * min n shape.layers) =
            perLayer shape * n + kvPerLayer shape ask * min n shape.layers := u64_eq (by omega)
        rw [gpuBytes, if_pos hsome, hweight, hkv', hlayers]
        exact u64_eq (by omega)
      refine ⟨hweight, hkv', fun gpu' hgpu' => ?_⟩
      rw [← Option.some.inj hgpu', hbytes, hweight, hkv']
      exact ⟨by omega, fun _ => rfl⟩

theorem ramBytes_eq (n : ℕ) : ramBytes shape ask n =
    shape.weightBytes - gpuWeight shape n + (kvBytes shape ask - gpuKv shape ask n) +
      shape.ramOnlyBytes := by
  have hbytes := hwithin.bytes
  rw [← hwithin.kvBytes_eq] at hbytes
  have hheld : u64 (shape.weightBytes - gpuWeight shape n +
      (kvBytes shape ask - gpuKv shape ask n)) =
      shape.weightBytes - gpuWeight shape n + (kvBytes shape ask - gpuKv shape ask n) :=
    u64_eq (by omega)
  rw [ramBytes, hheld]
  exact u64_eq (by omega)

/-- Weights, cache and picture file are on the card or in system memory, and the engine's buffers
with what is on the card. -/
theorem accounted (cap : Option ℕ) :
    shape.weightBytes + kvPerToken shape ask * ask.contextLen + shape.ramOnlyBytes +
        (if 0 < onCard F shape hardware ask cap then gpuComputeMib * mib else 0) ≤
      gpuBytes shape ask (onCard F shape hardware ask cap) +
        ramBytes shape ask (onCard F shape hardware ask cap) := by
  rw [hwithin.ramBytes_eq, ← hwithin.kvBytes_eq]
  split_ifs with hsome
  · rcases hcard : hardware.card with _ | gpu
    · rw [onCard_of_none hcard] at hsome
      exact absurd hsome (lt_irrefl 0)
    · rw [(hwithin.gpu_eq.2.2 gpu hcard).2 hsome]
      omega
  · have hnone : onCard F shape hardware ask cap = 0 := by omega
    have hweight : gpuWeight shape 0 = 0 := by rw [gpuWeight, mul_zero, u64, Nat.zero_mod]
    have hkv : gpuKv shape ask 0 = 0 := by
      rw [gpuKv, Nat.zero_min, mul_zero, u64, Nat.zero_mod]
    rw [hnone, hweight, hkv, Nat.sub_zero, Nat.sub_zero, add_zero]
    exact Nat.le_add_left _ _

/-- A lower cap leaves no less in system memory. -/
theorem ramBytes_anti {cap cap' : Option ℕ} (h : Lower cap cap') :
    ramBytes shape ask (onCard F shape hardware ask cap') ≤
      ramBytes shape ask (onCard F shape hardware ask cap) := by
  have hle := @onCard_mono F shape hardware ask cap cap' h
  have hweight := (@gpu_eq F shape hardware ask hwithin cap).1
  have hweight' := (@gpu_eq F shape hardware ask hwithin cap').1
  have hkv := (@gpu_eq F shape hardware ask hwithin cap).2.1
  have hkv' := (@gpu_eq F shape hardware ask hwithin cap').2.1
  have hmoreWeight : gpuWeight shape (onCard F shape hardware ask cap) ≤
      gpuWeight shape (onCard F shape hardware ask cap') := by
    rw [hweight, hweight']
    exact Nat.mul_le_mul_left _ hle
  have hmoreKv : gpuKv shape ask (onCard F shape hardware ask cap) ≤
      gpuKv shape ask (onCard F shape hardware ask cap') := by
    rw [hkv, hkv']
    exact Nat.mul_le_mul_left _ (min_le_min_right _ hle)
  rw [hwithin.ramBytes_eq, hwithin.ramBytes_eq]
  omega

end Within

/-- The room of the card a plan is made for; none without one. -/
def cardRoom (F : Floats) (hardware : Hardware) : ℕ :=
  hardware.card.elim 0 (usableGpuMib F)

theorem gpuMib_le (hwithin : Within shape hardware ask) (cap : Option ℕ) :
    gpuBytes shape ask (onCard F shape hardware ask cap) / mib ≤ cardRoom F hardware := by
  rcases hcard : hardware.card with _ | gpu
  · rw [onCard_of_none hcard, gpuBytes, if_neg (lt_irrefl 0), Nat.zero_div]
    exact Nat.zero_le _
  · rw [cardRoom, hcard, Option.elim_some]
    exact Nat.div_le_of_le_mul (by
      rw [mul_comm]
      exact (hwithin.gpu_eq.2.2 gpu hcard).1)

theorem ofWhatIsShown_ne (shown : ℕ × ℕ) (atLeast : Bool) :
    Verdict.ofWhatIsShown shown atLeast ≠ .willNotFit := by
  rw [Verdict.ofWhatIsShown]
  split_ifs <;> simp

/-- A picture file goes to the card only where there is room for it there. -/
theorem pictureFilePlace_card {placed : Fit} {fileBytes : ℕ}
    (h : pictureFilePlace F placed hardware fileBytes = .card) :
    (placed.withPictureFile .card fileBytes).gpuMib ≤ cardRoom F hardware := by
  rw [pictureFilePlace] at h
  dsimp only at h
  split_ifs at h with hroom
  · rcases hcard : hardware.card with _ | gpu
    · rw [hcard] at hroom
      contradiction
    rw [hcard, Option.any_some, decide_eq_true_eq] at hroom
    rw [cardRoom, hcard, Option.elim_some, Fit.withPictureFile]
    dsimp only
    rw [← add_assoc]
    exact hroom.2

end Bounds

/-- **A placement never asks for more than there is**, where what the model and the card hold is
counted in 64 bits: at most all layers and at most the cap's go to the card, and take no more of it
than its room; everything is on the card or in system memory; a lower cap never lowers system
memory; a model will not fit exactly where system memory is too small; and a picture file goes to
the card within the same room, and only lowers system memory. -/
theorem placement_bounded (F : Floats) (shape : Shape) (hardware : Hardware) (ask : Ask)
    (hwithin : Within shape hardware ask) (cap : Option ℕ) :
    ∃ plan, fit F shape hardware ask cap = some plan ∧
      plan.layersTotal = max shape.layers 1 + 1 ∧ plan.gpuLayers ≤ plan.layersTotal ∧
      (∀ n, cap = some n → plan.gpuLayers ≤ n) ∧
      plan.gpuMib ≤ cardRoom F hardware ∧
      (∃ gpuBytes ramBytes, plan.gpuMib = gpuBytes / mib ∧ plan.ramMib = ramBytes / mib ∧
        shape.weightBytes + kvPerToken shape ask * ask.contextLen + shape.ramOnlyBytes +
          (if 0 < plan.gpuLayers then gpuComputeMib * mib else 0) ≤ gpuBytes + ramBytes) ∧
      (∀ lower, Lower lower cap → ∃ less, fit F shape hardware ask lower = some less ∧
        plan.ramMib ≤ less.ramMib) ∧
      (plan.verdict = .willNotFit ↔ usableRamMib F hardware < plan.ramMib) ∧
      ∀ fileBytes, pictureFilePlace F plan hardware fileBytes = .card →
        (plan.withPictureFile .card fileBytes).gpuMib ≤ cardRoom F hardware ∧
        (plan.withPictureFile .card fileBytes).ramMib ≤ plan.ramMib ∧
        plan.gpuMib + plan.ramMib ≤ (plan.withPictureFile .card fileBytes).gpuMib +
          (plan.withPictureFile .card fileBytes).ramMib := by
  have htotal : layersTotal shape ≠ 0 := hwithin.layersTotal_pos.ne'
  refine ⟨_, if_neg htotal, hwithin.layersTotal_eq, onCard_le_total cap, ?_, gpuMib_le hwithin cap,
    ⟨_, _, rfl, rfl, hwithin.accounted cap⟩, ?_, ?_, ?_⟩
  · rintro n rfl
    exact onCard_le_cap n
  · exact fun lower hlower => ⟨_, if_neg htotal,
      Nat.div_le_div_right (hwithin.ramBytes_anti hlower)⟩
  · dsimp only
    split_ifs with hfits
    · exact iff_of_false (ofWhatIsShown_ne _ _) (not_lt.mpr (of_decide_eq_true hfits))
    · exact iff_of_true rfl (not_le.mp fun hle => hfits (decide_eq_true hle))
  · refine fun fileBytes hplace => ⟨pictureFilePlace_card hplace, Nat.sub_le _ _, ?_⟩
    rw [Fit.withPictureFile]
    dsimp only
    omega

/-! ### A small model, and a count that wraps around -/

/-- Shares computed without rounding, and nothing to show of the speed. -/
def shares : Floats :=
  ⟨fun mib => mib * 8 / 100, fun mib => mib / 4, fun _ _ _ _ => (0, 0), fun _ _ => ""⟩

def noCard : Hardware :=
  ⟨[], 16384, 8192⟩

def smallModel : Shape :=
  ⟨2000000000, 2000000000, 28, 114688, 0⟩

def smallCard : Hardware :=
  ⟨[⟨"Vulkan1", 4096, 4096, none, false, true⟩], 16384, 8192⟩

theorem smallModel_within : Within smallModel smallCard ⟨8192, false⟩ where
  layers := by decide
  bytes := by decide

/-- A small model, at most twelve of its layers on a small card; with at most five, no less is in
system memory. -/
theorem smallModel_placed :
    ∃ plan, fit shares smallModel smallCard ⟨8192, false⟩ (some 12) = some plan ∧
      plan.gpuLayers ≤ 12 ∧ plan.gpuMib ≤ 3712 ∧ ∃ less,
        fit shares smallModel smallCard ⟨8192, false⟩ (some 5) = some less ∧
          plan.ramMib ≤ less.ramMib := by
  obtain ⟨plan, hfit, -, -, hcap, hroom, -, hlower, -⟩ :=
    placement_bounded shares smallModel smallCard ⟨8192, false⟩ smallModel_within (some 12)
  obtain ⟨less, hless, hram⟩ := hlower (some 5) fun n hn => ⟨5, rfl, by cases hn; decide⟩
  have hcard : cardRoom shares smallCard = 3712 := by decide
  exact ⟨plan, hfit, hcap 12 rfl, hcard ▸ hroom, less, hless, hram⟩

/-- The weights and a picture file whose sum wraps around to nothing. -/
def hugeModel : Shape :=
  ⟨2 ^ 64 - 1, 0, 1, 0, 1⟩

/-- A model of 2^64 bytes in all is planned to take no memory, and fits. -/
theorem hugeModel_placed : ∃ plan, fit shares hugeModel noCard ⟨8192, false⟩ none = some plan ∧
    plan.gpuMib = 0 ∧ plan.ramMib = 0 ∧ plan.verdict ≠ .willNotFit ∧
    0 < hugeModel.weightBytes / mib := by
  have hcard : noCard.card = none := rfl
  have hram : ramBytes hugeModel ⟨8192, false⟩ 0 = 0 := by decide
  refine ⟨_, if_neg (by decide), ?_, ?_, ?_, by decide⟩
  · rw [onCard_of_none hcard]
    decide
  · rw [onCard_of_none hcard, hram]
    decide
  · dsimp only
    rw [onCard_of_none hcard, hram, if_pos (by decide)]
    exact ofWhatIsShown_ne _ _

end LocalSpace.Placing
