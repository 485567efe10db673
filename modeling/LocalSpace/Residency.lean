import Mathlib.Algebra.BigOperators.Group.List.Basic
import Mathlib.Algebra.Order.Ring.Int
import Mathlib.Algebra.Order.Ring.Rat
import Mathlib.Data.Rat.Floor
import Mathlib.Tactic.Linarith
import Mathlib.Tactic.Positivity

/-!
# Where a model's tensors live

`planner.rs`, over exact rationals: core weights and the cache on the cards, then as many routed
experts as there is room for, the others in memory but for a reserve, and the rest on the disk. Each
step takes what the step before left, so more room never places an expert further away, and the time
a token takes is the bytes over the bandwidth of where they are. A division by no bandwidth at all
is not a number of seconds (`within`): the estimate is then of no tokens.
-/

namespace LocalSpace.Residency

/-- `GB`, in bytes. -/
@[grind =]
def gb : ℚ := 1024 * 1024 * 1024

/-- The bandwidth of the card's own memory, in GB a second. -/
@[grind =]
def hbmGbps : ℚ := 1200

/-- How the routed experts of a model are laid out. -/
structure MoeLayout where
  expertsPerLayer : ℕ
  /-- Experts evaluated per token per layer. -/
  activeExperts : ℕ
  sharedExperts : ℕ

/-- What a model weighs and how it is shaped. -/
structure TensorMap where
  modelId : String
  /-- What is on the card regardless of placement. -/
  coreBytes : ℕ
  /-- Routed-expert weights, across all layers. -/
  routedExpertBytes : ℕ
  layers : ℕ
  moe : Option MoeLayout
  kvBytesPerTokenFp16 : ℕ

namespace TensorMap

variable (map : TensorMap)

/-- Size of one routed expert's weights. -/
def expertBytes : ℕ :=
  match map.moe with
  | some m =>
    if 0 < m.expertsPerLayer ∧ 0 < map.layers then
      map.routedExpertBytes / (m.expertsPerLayer * map.layers)
    else 0
  | none => 0

/-- Routed-expert bytes touched per decoded token, before any caching. -/
def expertBytesPerToken : ℕ :=
  match map.moe with
  | some m => map.expertBytes * m.activeExperts * map.layers
  | none => 0

def isMoe : Bool :=
  map.moe.isSome && 0 < map.routedExpertBytes

end TensorMap

structure Reservation where
  name : String
  bytes : ℕ

structure PlanRequest where
  contextLen : ℕ
  batch : ℕ
  /-- What the planner must leave alone on the cards. -/
  reservations : List Reservation
  kvQuantized : Bool

def PlanRequest.reserved (req : PlanRequest) : ℕ :=
  (req.reservations.map Reservation.bytes).sum

structure Machine where
  /-- Each card's memory, in GB. -/
  gpus : List ℕ
  ramGb : ℕ
  cores : ℕ
  nvmeGbps : ℚ≥0
  pcieGbps : ℚ≥0
  avx512 : Bool
  amx : Bool
  unifiedMemory : Bool

namespace Machine

variable (machine : Machine)

def totalVramGb : ℕ :=
  machine.gpus.sum

def largestGpuGb : ℕ :=
  machine.gpus.foldr max 0

/-- Several cards pool their memory; a single one does not. -/
def vramGb : ℕ :=
  if 1 < machine.gpus.length then machine.totalVramGb else machine.largestGpuGb

/-- What is kept of the memory, in GB. -/
def baseReserveGb : ℚ :=
  max (machine.ramGb / 8) 12

def ramForExperts : ℕ :=
  ⌊max (machine.ramGb - machine.baseReserveGb) 0 * gb⌋₊

/-- Effective bandwidth for evaluating an expert on the processor. -/
def cpuExpertBandwidth : ℚ :=
  let base := if 32 ≤ machine.cores then 120 else 75
  let isa := if machine.amx then 1 else if machine.avx512 then 85 / 100 else 55 / 100
  base * isa

/-- Whether routed experts are computed on the processor rather than copied to the card. -/
def cpuExpertCompute : Bool :=
  !machine.unifiedMemory && machine.pcieGbps < machine.cpuExpertBandwidth

end Machine

inductive Verdict where
  | resident | hybrid | streaming | doesNotFit
  deriving DecidableEq

/-- How good a verdict is. -/
def Verdict.rank : Verdict → ℕ
  | resident => 3
  | hybrid => 2
  | streaming => 1
  | doesNotFit => 0

/-- What is noted beside a plan. -/
inductive Note where
  | needs (mustReside : ℕ) (free : ℚ)
  | computed (cpuBandwidth : ℚ) (pcieGbps : ℚ)
  | copied (pcieGbps : ℚ)
  | stream (nvmeExperts : ℕ)
  | layerOffload
  | prewarmed

structure PlacementPlan where
  modelId : String
  verdict : Verdict
  gpuResidentBytes : ℕ
  kvCacheBytes : ℕ
  kvPrecision : String
  hotExpertCacheBytes : ℕ
  hotExpertFraction : ℚ
  ramExpertBytes : ℕ
  nvmeExpertBytes : ℕ
  reservations : List Reservation
  estimatedTokS : ℚ
  firstTokenMs : ℚ
  cpuExpertCompute : Bool
  notes : List Note

/-- The cache's bytes and its precision. -/
def kvCache (map : TensorMap) (req : PlanRequest) : ℕ × String :=
  let perToken := if req.kvQuantized then map.kvBytesPerTokenFp16 / 2 else map.kvBytesPerTokenFp16
  (perToken * req.contextLen * max req.batch 1, if req.kvQuantized then "q8/fp8" else "fp16")

/-- The seconds that bytes take over a bandwidth, where there is one. -/
def within (bytes bandwidth : ℚ) : Option ℚ :=
  if bandwidth = 0 then none else some (bytes / (bandwidth * gb))

/-- The seconds a token takes. -/
def perTokenSeconds (map : TensorMap) (machine : Machine) (hotFraction : ℚ) (nvmeBytes : ℕ)
    (cpuExpertCompute : Bool) : Option ℚ :=
  let coreS := map.coreBytes / (hbmGbps * gb)
  let expertPerToken : ℚ := map.expertBytesPerToken
  let hotShare := expertPerToken * hotFraction
  let coldShare := expertPerToken - hotShare
  let hotS := hotShare / (hbmGbps * gb)
  let coldBandwidth : ℚ :=
    if cpuExpertCompute then machine.cpuExpertBandwidth else machine.pcieGbps
  let coldS := if 0 < coldShare then within coldShare coldBandwidth else some 0
  -- the part on the disk is hit in proportion to how much of the experts it is
  let nvmeS := if 0 < nvmeBytes ∧ 0 < map.routedExpertBytes then
      within (coldShare * (nvmeBytes / map.routedExpertBytes)) machine.nvmeGbps
    else some 0
  coldS.bind fun cold => nvmeS.map fun nvme => coreS + hotS + cold + nvme

/-- Tokens a second, and the milliseconds before the first. -/
def estimateThroughput (map : TensorMap) (machine : Machine) (hotFraction : ℚ) (nvmeBytes : ℕ)
    (cpuExpertCompute : Bool) (req : PlanRequest) : ℚ × ℚ :=
  let tokS := (perTokenSeconds map machine hotFraction nvmeBytes cpuExpertCompute).elim 0
    fun s => if 0 < s then 1 / s else 0
  let prefillS := (map.coreBytes + map.routedExpertBytes * hotFraction) / (hbmGbps * gb)
  let promptTokens : ℚ := (min req.contextLen 8192 : ℕ)
  (tokS, (prefillS + promptTokens / (max tokS 1 * 12)) * 1000 + 120)

/-- What is free on the cards after reservations. -/
@[grind =]
def usable (machine : Machine) (req : PlanRequest) : ℚ :=
  machine.vramGb * gb - req.reserved

/-- What is on the cards always. -/
def mustReside (map : TensorMap) (req : PlanRequest) : ℕ :=
  map.coreBytes + (kvCache map req).1

/-- The routed experts on the cards: as many as what is left there holds. -/
def hotExperts (map : TensorMap) (machine : Machine) (req : PlanRequest) : ℕ :=
  ⌊min (max (usable machine req - mustReside map req) 0) map.routedExpertBytes⌋₊

def hotFraction (map : TensorMap) (machine : Machine) (req : PlanRequest) : ℚ :=
  if 0 < map.routedExpertBytes then hotExperts map machine req / map.routedExpertBytes else 1

/-- What is not on the cards. -/
def overflow (map : TensorMap) (machine : Machine) (req : PlanRequest) : ℕ :=
  map.routedExpertBytes - hotExperts map machine req

def nvmeExperts (map : TensorMap) (machine : Machine) (req : PlanRequest) : ℕ :=
  overflow map machine req - min (overflow map machine req) machine.ramForExperts

def verdictOf (overflow nvmeExperts : ℕ) : Verdict :=
  if overflow = 0 then .resident else if nvmeExperts = 0 then .hybrid else .streaming

def notesOf (map : TensorMap) (machine : Machine) (req : PlanRequest) : List Note :=
  let overflow := overflow map machine req
  let nvmeExperts := nvmeExperts map machine req
  (if map.isMoe ∧ 0 < overflow then
    [if machine.cpuExpertCompute then .computed machine.cpuExpertBandwidth machine.pcieGbps
      else .copied machine.pcieGbps] else []) ++
  (if verdictOf overflow nvmeExperts = .streaming then [.stream nvmeExperts] else []) ++
  (if !map.isMoe ∧ 0 < overflow then [.layerOffload] else []) ++
  (if hotFraction map machine req < 1 ∧ map.isMoe then [.prewarmed] else [])

/-- Plan where a model's tensors live on this machine. -/
def plan (map : TensorMap) (machine : Machine) (req : PlanRequest) : PlacementPlan :=
  let kv := kvCache map req
  let usable := usable machine req
  if usable ≤ 0 ∨ usable < mustReside map req then
    { modelId := map.modelId
      verdict := .doesNotFit
      gpuResidentBytes := 0
      kvCacheBytes := kv.1
      kvPrecision := kv.2
      hotExpertCacheBytes := 0
      hotExpertFraction := 0
      ramExpertBytes := 0
      nvmeExpertBytes := 0
      reservations := req.reservations
      estimatedTokS := 0
      firstTokenMs := 0
      cpuExpertCompute := false
      notes := [.needs (mustReside map req) (max usable 0)] }
  else
    let hot := hotExperts map machine req
    let hotFraction := hotFraction map machine req
    let overflow := overflow map machine req
    let nvmeExperts := nvmeExperts map machine req
    let estimate := estimateThroughput map machine hotFraction nvmeExperts
      machine.cpuExpertCompute req
    { modelId := map.modelId
      verdict := verdictOf overflow nvmeExperts
      gpuResidentBytes := map.coreBytes + hot
      kvCacheBytes := kv.1
      kvPrecision := kv.2
      hotExpertCacheBytes := hot
      hotExpertFraction := hotFraction
      ramExpertBytes := min overflow machine.ramForExperts
      nvmeExpertBytes := nvmeExperts
      reservations := req.reservations
      estimatedTokS := estimate.1
      firstTokenMs := estimate.2
      cpuExpertCompute := machine.cpuExpertCompute
      notes := notesOf map machine req }

/-! ### Where every byte is -/

variable {map : TensorMap} {machine better : Machine} {req less : PlanRequest}

/-- Whether the core weights and the cache have room. -/
@[grind =]
def Fits (map : TensorMap) (machine : Machine) (req : PlanRequest) : Prop :=
  0 < usable machine req ∧ (mustReside map req : ℚ) ≤ usable machine req

theorem gb_pos : 0 < gb := by
  norm_num [gb]

theorem plan_of_not_fits (h : ¬Fits map machine req) :
    (plan map machine req).verdict = .doesNotFit ∧ (plan map machine req).estimatedTokS = 0 := by
  have hnot : usable machine req ≤ 0 ∨ usable machine req < mustReside map req := by
    rwa [Fits, not_and_or, not_lt, not_le] at h
  simp only [plan, if_pos hnot, and_self]

/-- What a plan that fits is. -/
structure Placed (map : TensorMap) (machine : Machine) (req : PlanRequest) (p : PlacementPlan) :
    Prop where
  verdict : p.verdict = verdictOf (overflow map machine req) (nvmeExperts map machine req)
  kv : p.kvCacheBytes = (kvCache map req).1
  hot : p.hotExpertCacheBytes = hotExperts map machine req
  ram : p.ramExpertBytes = min (overflow map machine req) machine.ramForExperts
  nvme : p.nvmeExpertBytes = nvmeExperts map machine req
  tokS : p.estimatedTokS = (estimateThroughput map machine (hotFraction map machine req)
    (nvmeExperts map machine req) machine.cpuExpertCompute req).1

theorem plan_of_fits (h : Fits map machine req) :
    Placed map machine req (plan map machine req) := by
  have hnot : ¬(usable machine req ≤ 0 ∨ usable machine req < mustReside map req) := by
    rwa [not_or, not_le, not_lt]
  simp only [plan, if_neg hnot]
  constructor <;> rfl

theorem verdictOf_ne (spill nvme : ℕ) : verdictOf spill nvme ≠ .doesNotFit := by
  rw [verdictOf]
  split_ifs <;> decide

theorem fits_of_verdict (h : (plan map machine req).verdict ≠ .doesNotFit) :
    Fits map machine req := by
  by_contra hnot
  exact h (plan_of_not_fits hnot).1

/-- What a plan owes to every byte: each routed expert's is in one place, the card's are no more
than it has, and the memory's leave the reserve. -/
structure Accounted (map : TensorMap) (machine : Machine) (req : PlanRequest) (p : PlacementPlan) :
    Prop where
  experts : p.hotExpertCacheBytes + p.ramExpertBytes + p.nvmeExpertBytes = map.routedExpertBytes
  card : ((map.coreBytes + p.kvCacheBytes + p.hotExpertCacheBytes + req.reserved : ℕ) : ℚ) ≤
    machine.vramGb * gb
  ram : p.ramExpertBytes = 0 ∨
    (p.ramExpertBytes : ℚ) + machine.baseReserveGb * gb ≤ machine.ramGb * gb

theorem hotExperts_le : hotExperts map machine req ≤ map.routedExpertBytes := by
  refine Nat.floor_le_of_le ?_
  exact min_le_right _ _

theorem hotExperts_le_free (h : Fits map machine req) :
    (hotExperts map machine req : ℚ) ≤ usable machine req - mustReside map req := by
  have hfree : 0 ≤ usable machine req - mustReside map req := sub_nonneg.mpr h.2
  rw [hotExperts, max_eq_left hfree]
  exact (Nat.floor_le (le_min hfree (Nat.cast_nonneg _))).trans (min_le_left _ _)

theorem ramForExperts_le : machine.ramForExperts = 0 ∨
    (machine.ramForExperts : ℚ) + machine.baseReserveGb * gb ≤ machine.ramGb * gb := by
  rcases le_total (machine.ramGb : ℚ) machine.baseReserveGb with hle | hle
  · left
    rw [Machine.ramForExperts, max_eq_right (sub_nonpos.mpr hle), zero_mul, Nat.floor_zero]
  · right
    have hroom : 0 ≤ machine.ramGb - machine.baseReserveGb := sub_nonneg.mpr hle
    have hfloor : (machine.ramForExperts : ℚ) ≤ (machine.ramGb - machine.baseReserveGb) * gb := by
      rw [Machine.ramForExperts, max_eq_left hroom]
      exact Nat.floor_le (mul_nonneg hroom gb_pos.le)
    linarith

theorem plan_accounted (h : Fits map machine req) :
    Accounted map machine req (plan map machine req) := by
  have hplaced := plan_of_fits h
  constructor
  · rw [hplaced.hot, hplaced.ram, hplaced.nvme, nvmeExperts, overflow]
    have hle := @hotExperts_le map machine req
    omega
  · have hfree := hotExperts_le_free h
    rw [hplaced.kv, hplaced.hot]
    rw [usable, mustReside] at hfree
    push_cast at hfree ⊢
    linarith
  · rw [hplaced.ram]
    rcases @ramForExperts_le machine with hzero | hle
    · left
      rw [hzero, Nat.min_zero]
    · right
      have hmin : ((min (overflow map machine req) machine.ramForExperts : ℕ) : ℚ) ≤
          machine.ramForExperts := Nat.cast_le.mpr (min_le_right _ _)
      linarith

/-! ### More room -/

/-- At least as much memory on the cards and beside them, at the same bandwidths, of the same
processor. -/
structure AtLeast (better machine : Machine) : Prop where
  vram : machine.totalVramGb ≤ better.totalVramGb
  ram : machine.ramGb ≤ better.ramGb
  nvme : better.nvmeGbps = machine.nvmeGbps
  pcie : better.pcieGbps = machine.pcieGbps
  cores : better.cores = machine.cores
  avx512 : better.avx512 = machine.avx512
  amx : better.amx = machine.amx
  unified : better.unifiedMemory = machine.unifiedMemory

/-- A request that reserves no more and asks no longer a context, in no larger a batch and no finer
a cache. -/
structure NoMore (less req : PlanRequest) : Prop where
  reserved : less.reserved ≤ req.reserved
  context : less.contextLen ≤ req.contextLen
  batch : less.batch ≤ req.batch
  kv : req.kvQuantized = true → less.kvQuantized = true

/-- A single card is all there is. -/
theorem vramGb_eq (machine : Machine) : machine.vramGb = machine.totalVramGb := by
  rw [Machine.vramGb]
  split_ifs with hlength
  · rfl
  · rw [Machine.largestGpuGb, Machine.totalVramGb]
    rcases hgpus : machine.gpus with _ | ⟨gpu, _ | ⟨other, rest⟩⟩
    · rfl
    · simp
    · rw [hgpus] at hlength
      simp at hlength

theorem kvCache_mono (h : NoMore less req) : (kvCache map less).1 ≤ (kvCache map req).1 := by
  have hper : (if less.kvQuantized then map.kvBytesPerTokenFp16 / 2 else map.kvBytesPerTokenFp16) ≤
      if req.kvQuantized then map.kvBytesPerTokenFp16 / 2 else map.kvBytesPerTokenFp16 := by
    have hhalf : map.kvBytesPerTokenFp16 / 2 ≤ map.kvBytesPerTokenFp16 := Nat.div_le_self _ _
    rcases hreq : req.kvQuantized with _ | _
    · simp only [Bool.false_eq_true, if_false]
      split_ifs
      · exact hhalf
      · exact le_rfl
    · rw [h.kv hreq]
  exact Nat.mul_le_mul (Nat.mul_le_mul hper h.context) (max_le_max_right 1 h.batch)

theorem usable_mono (hm : AtLeast better machine) (hr : NoMore less req) :
    usable machine req ≤ usable better less := by
  have hvramGb : machine.vramGb ≤ better.vramGb := by
    rw [vramGb_eq, vramGb_eq]
    exact hm.vram
  have hvram : (machine.vramGb : ℚ) * gb ≤ better.vramGb * gb :=
    mul_le_mul_of_nonneg_right (Nat.cast_le.mpr hvramGb) gb_pos.le
  have hreserved : (less.reserved : ℚ) ≤ req.reserved := Nat.cast_le.mpr hr.reserved
  rw [usable, usable]
  linarith

theorem mustReside_mono (hr : NoMore less req) :
    (mustReside map less : ℚ) ≤ mustReside map req :=
  Nat.cast_le.mpr (Nat.add_le_add_left (kvCache_mono hr) _)

theorem fits_mono (hm : AtLeast better machine) (hr : NoMore less req)
    (h : Fits map machine req) : Fits map better less :=
  ⟨h.1.trans_le (usable_mono hm hr), (mustReside_mono hr).trans (h.2.trans (usable_mono hm hr))⟩

theorem hotExperts_mono (hm : AtLeast better machine) (hr : NoMore less req) :
    hotExperts map machine req ≤ hotExperts map better less := by
  refine Nat.floor_mono (min_le_min_right _ (max_le_max_right 0 ?_))
  exact sub_le_sub (usable_mono hm hr) (mustReside_mono hr)

theorem baseReserve_free_mono (hm : AtLeast better machine) :
    machine.ramGb - machine.baseReserveGb ≤ better.ramGb - better.baseReserveGb := by
  have hram : (machine.ramGb : ℚ) ≤ better.ramGb := Nat.cast_le.mpr hm.ram
  rw [Machine.baseReserveGb, Machine.baseReserveGb]
  rcases max_cases ((better.ramGb : ℚ) / 8) 12 with ⟨heq, -⟩ | ⟨heq, -⟩
  · have hle : (machine.ramGb : ℚ) / 8 ≤ max ((machine.ramGb : ℚ) / 8) 12 := le_max_left _ _
    rw [heq]
    linarith
  · have hle : (12 : ℚ) ≤ max ((machine.ramGb : ℚ) / 8) 12 := le_max_right _ _
    rw [heq]
    linarith

theorem ramForExperts_mono (hm : AtLeast better machine) :
    machine.ramForExperts ≤ better.ramForExperts := by
  refine Nat.floor_mono (mul_le_mul_of_nonneg_right (max_le_max_right 0 ?_) gb_pos.le)
  exact baseReserve_free_mono hm

theorem overflow_mono (hm : AtLeast better machine) (hr : NoMore less req) :
    overflow map better less ≤ overflow map machine req :=
  Nat.sub_le_sub_left (hotExperts_mono hm hr) _

theorem nvmeExperts_mono (hm : AtLeast better machine) (hr : NoMore less req) :
    nvmeExperts map better less ≤ nvmeExperts map machine req := by
  have hover := @overflow_mono map _ _ _ _ hm hr
  have hram := ramForExperts_mono hm
  rw [nvmeExperts, nvmeExperts]
  omega

theorem verdictOf_mono {spill spill' nvme nvme' : ℕ} (hspill : spill' ≤ spill)
    (hnvme : nvme' ≤ nvme) :
    (verdictOf spill nvme).rank ≤ (verdictOf spill' nvme').rank := by
  rw [verdictOf, verdictOf]
  split_ifs <;> first | omega | decide

theorem hotFraction_bounds : 0 ≤ hotFraction map machine req ∧ hotFraction map machine req ≤ 1 := by
  rw [hotFraction]
  split_ifs
  · exact ⟨by positivity,
      div_le_one_of_le₀ (Nat.cast_le.mpr hotExperts_le) (Nat.cast_nonneg _)⟩
  · exact ⟨zero_le_one, le_rfl⟩

theorem hotFraction_mono (hm : AtLeast better machine) (hr : NoMore less req) :
    hotFraction map machine req ≤ hotFraction map better less := by
  rw [hotFraction, hotFraction]
  split_ifs
  · exact div_le_div_of_nonneg_right (Nat.cast_le.mpr (hotExperts_mono hm hr)) (Nat.cast_nonneg _)
  · exact le_rfl

/-! ### The time of a token -/

section Times

/-- The bandwidth cold experts are read at. -/
@[grind =]
def coldBandwidth (machine : Machine) : ℚ :=
  if machine.cpuExpertCompute then machine.cpuExpertBandwidth else machine.pcieGbps

/-- The seconds a token takes, where there is bandwidth. -/
def tokenTime (map : TensorMap) (machine : Machine) (f : ℚ) (nvme : ℕ) : ℚ :=
  map.coreBytes / (hbmGbps * gb) + map.expertBytesPerToken * f / (hbmGbps * gb) +
    (map.expertBytesPerToken - map.expertBytesPerToken * f) / (coldBandwidth machine * gb) +
    (map.expertBytesPerToken - map.expertBytesPerToken * f) * (nvme / map.routedExpertBytes) /
      (machine.nvmeGbps * gb)

/-- Whether what is read over a path has bandwidth there. -/
def Reads (map : TensorMap) (machine : Machine) (f : ℚ) (nvme : ℕ) : Prop :=
  (0 < (map.expertBytesPerToken : ℚ) - map.expertBytesPerToken * f → coldBandwidth machine ≠ 0) ∧
    (0 < nvme ∧ 0 < map.routedExpertBytes → (machine.nvmeGbps : ℚ) ≠ 0)

variable {f f' : ℚ} {nvme nvme' : ℕ}

theorem cold_nonneg (hf : f ≤ 1) :
    0 ≤ (map.expertBytesPerToken : ℚ) - map.expertBytesPerToken * f := by
  have hle : (map.expertBytesPerToken : ℚ) * f ≤ map.expertBytesPerToken * 1 :=
    mul_le_mul_of_nonneg_left hf (Nat.cast_nonneg _)
  linarith

theorem perTokenSeconds_of_reads (hf : f ≤ 1) (h : Reads map machine f nvme) :
    perTokenSeconds map machine f nvme machine.cpuExpertCompute =
      some (tokenTime map machine f nvme) := by
  have hcold : (if 0 < (map.expertBytesPerToken : ℚ) - map.expertBytesPerToken * f then
      within (map.expertBytesPerToken - map.expertBytesPerToken * f) (coldBandwidth machine)
      else some 0) =
      some ((map.expertBytesPerToken - map.expertBytesPerToken * f) /
        (coldBandwidth machine * gb)) := by
    split_ifs with hpos
    · rw [within, if_neg (h.1 hpos)]
    · rw [le_antisymm (not_lt.mp hpos) (cold_nonneg hf), zero_div]
  have hnvme : (if 0 < nvme ∧ 0 < map.routedExpertBytes then
      within ((map.expertBytesPerToken - map.expertBytesPerToken * f) *
        (nvme / map.routedExpertBytes)) machine.nvmeGbps else some 0) =
      some ((map.expertBytesPerToken - map.expertBytesPerToken * f) *
        (nvme / map.routedExpertBytes) / (machine.nvmeGbps * gb)) := by
    split_ifs with hpos
    · rw [within, if_neg (h.2 hpos)]
    · rw [not_and_or, Nat.pos_iff_ne_zero, Nat.pos_iff_ne_zero, not_not, not_not] at hpos
      rcases hpos with hzero | hzero
      · rw [hzero, Nat.cast_zero, zero_div, mul_zero, zero_div]
      · rw [hzero, Nat.cast_zero, div_zero, mul_zero, zero_div]
  simp only [perTokenSeconds]
  rw [← coldBandwidth, hcold, hnvme]
  rfl

theorem perTokenSeconds_of_not_reads (h : ¬Reads map machine f nvme) :
    perTokenSeconds map machine f nvme machine.cpuExpertCompute = none := by
  rw [Reads, not_and_or] at h
  simp only [perTokenSeconds]
  rw [← coldBandwidth]
  rcases h with h | h
  · obtain ⟨hpos, hzero⟩ := Classical.not_imp.mp h
    rw [if_pos hpos, within, if_pos (not_not.mp hzero), Option.bind_none]
  · obtain ⟨hpos, hzero⟩ := Classical.not_imp.mp h
    have hnone : within ((map.expertBytesPerToken - map.expertBytesPerToken * f) *
        (nvme / map.routedExpertBytes)) machine.nvmeGbps = none := if_pos (not_not.mp hzero)
    rw [if_pos hpos, hnone]
    exact Option.bind_fun_none _

theorem Machine.cpuExpertBandwidth_bounds (machine : Machine) :
    0 ≤ machine.cpuExpertBandwidth ∧ machine.cpuExpertBandwidth ≤ hbmGbps := by
  simp only [Machine.cpuExpertBandwidth, hbmGbps]
  split_ifs <;> norm_num

theorem coldBandwidth_bounds (h : (machine.pcieGbps : ℚ) ≤ hbmGbps) :
    0 ≤ coldBandwidth machine ∧ coldBandwidth machine ≤ hbmGbps := by
  rw [coldBandwidth]
  split_ifs
  · exact machine.cpuExpertBandwidth_bounds
  · exact ⟨NNRat.cast_nonneg _, h⟩

theorem AtLeast.cpuExpertBandwidth_eq (hm : AtLeast better machine) :
    better.cpuExpertBandwidth = machine.cpuExpertBandwidth := by
  rw [Machine.cpuExpertBandwidth, Machine.cpuExpertBandwidth, hm.cores, hm.amx, hm.avx512]

theorem AtLeast.coldBandwidth_eq (hm : AtLeast better machine) :
    coldBandwidth better = coldBandwidth machine := by
  rw [coldBandwidth, coldBandwidth, Machine.cpuExpertCompute, Machine.cpuExpertCompute,
    hm.cpuExpertBandwidth_eq, hm.pcie, hm.unified]

theorem cold_antitone (hff : f ≤ f') : (map.expertBytesPerToken : ℚ) -
    map.expertBytesPerToken * f' ≤ map.expertBytesPerToken - map.expertBytesPerToken * f :=
  sub_le_sub_left (mul_le_mul_of_nonneg_left hff (Nat.cast_nonneg _)) _

theorem Reads.mono (hm : AtLeast better machine) (hff : f ≤ f') (hnvme : nvme' ≤ nvme)
    (h : Reads map machine f nvme) : Reads map better f' nvme' := by
  rw [Reads, hm.coldBandwidth_eq, hm.nvme]
  exact ⟨fun hpos => h.1 (hpos.trans_le (cold_antitone hff)),
    fun hpos => h.2 ⟨hpos.1.trans_le hnvme, hpos.2⟩⟩

/-- An expert more on the card is read no slower there. -/
theorem share_mono (hb : 0 ≤ coldBandwidth machine ∧ coldBandwidth machine ≤ hbmGbps)
    (hf' : f' ≤ 1) (hff : f ≤ f') (h : Reads map machine f nvme) :
    map.expertBytesPerToken * f' / (hbmGbps * gb) +
      (map.expertBytesPerToken - map.expertBytesPerToken * f') / (coldBandwidth machine * gb) ≤
    map.expertBytesPerToken * f / (hbmGbps * gb) +
      (map.expertBytesPerToken - map.expertBytesPerToken * f) / (coldBandwidth machine * gb) := by
  have hcold := @cold_nonneg map _ hf'
  have hless := @cold_antitone map _ _ hff
  rcases hb.1.eq_or_lt with hzero | hpos
  · -- without bandwidth there is nothing to read
    have hnone : ¬0 < (map.expertBytesPerToken : ℚ) - map.expertBytesPerToken * f :=
      fun hlt => h.1 hlt hzero.symm
    have hsame : (map.expertBytesPerToken : ℚ) * f' = map.expertBytesPerToken * f := by linarith
    rw [hsame]
  · have hmore : 0 ≤ (map.expertBytesPerToken : ℚ) * f' - map.expertBytesPerToken * f := by
      linarith
    have hfaster : (map.expertBytesPerToken * f' - map.expertBytesPerToken * f) / (hbmGbps * gb) ≤
        (map.expertBytesPerToken * f' - map.expertBytesPerToken * f) /
          (coldBandwidth machine * gb) :=
      div_le_div_of_nonneg_left hmore (mul_pos hpos gb_pos)
        (mul_le_mul_of_nonneg_right hb.2 gb_pos.le)
    rw [sub_div, sub_div] at hfaster
    rw [sub_div, sub_div]
    linarith

theorem tokenTime_mono (hm : AtLeast better machine) (hpcie : (machine.pcieGbps : ℚ) ≤ hbmGbps)
    (hf' : f' ≤ 1) (hff : f ≤ f') (hnvme : nvme' ≤ nvme) (h : Reads map machine f nvme) :
    tokenTime map better f' nvme' ≤ tokenTime map machine f nvme := by
  have hshare := share_mono (coldBandwidth_bounds hpcie) hf' hff h
  have hcold := @cold_nonneg map _ hf'
  have hdisk : (map.expertBytesPerToken - map.expertBytesPerToken * f') *
      ((nvme' : ℚ) / map.routedExpertBytes) / (machine.nvmeGbps * gb) ≤
      (map.expertBytesPerToken - map.expertBytesPerToken * f) *
        (nvme / map.routedExpertBytes) / (machine.nvmeGbps * gb) := by
    have hpart : (nvme' : ℚ) / map.routedExpertBytes ≤ nvme / map.routedExpertBytes :=
      div_le_div_of_nonneg_right (Nat.cast_le.mpr hnvme) (Nat.cast_nonneg _)
    refine div_le_div_of_nonneg_right ?_ (mul_nonneg (NNRat.cast_nonneg _) gb_pos.le)
    exact mul_le_mul (cold_antitone hff) hpart (by positivity) (hcold.trans (cold_antitone hff))
  rw [tokenTime, tokenTime, hm.coldBandwidth_eq, hm.nvme]
  linarith

/-- A token takes time exactly where there are weights to read. -/
theorem tokenTime_pos_iff (hb : 0 ≤ coldBandwidth machine) (hf : 0 ≤ f) (hf1 : f ≤ 1)
    (h : Reads map machine f nvme) :
    0 < tokenTime map machine f nvme ↔ 0 < map.coreBytes ∨ 0 < map.expertBytesPerToken := by
  have hgb := gb_pos
  have hhbm : 0 < hbmGbps * gb := by
    rw [hbmGbps]
    positivity
  have hcold := @cold_nonneg map _ hf1
  have hcore : 0 ≤ (map.coreBytes : ℚ) / (hbmGbps * gb) := by positivity
  have hhot : 0 ≤ (map.expertBytesPerToken : ℚ) * f / (hbmGbps * gb) := by positivity
  have hslow : 0 ≤ ((map.expertBytesPerToken : ℚ) - map.expertBytesPerToken * f) /
      (coldBandwidth machine * gb) := by positivity
  have hdisk : 0 ≤ ((map.expertBytesPerToken : ℚ) - map.expertBytesPerToken * f) *
      (nvme / map.routedExpertBytes) / (machine.nvmeGbps * gb) := by positivity
  rw [tokenTime]
  constructor
  · intro hpos
    by_contra hnot
    rw [not_or, not_lt, not_lt, Nat.le_zero, Nat.le_zero] at hnot
    rw [hnot.1, hnot.2] at hpos
    simp at hpos
  · rintro (hpos | hpos)
    · have hterm : 0 < (map.coreBytes : ℚ) / (hbmGbps * gb) :=
        div_pos (Nat.cast_pos.mpr hpos) hhbm
      linarith
    · have hexperts : 0 < (map.expertBytesPerToken : ℚ) := Nat.cast_pos.mpr hpos
      rcases hcold.eq_or_lt with hzero | hlt
      · have hterm : 0 < (map.expertBytesPerToken : ℚ) * f / (hbmGbps * gb) :=
          div_pos (by linarith) hhbm
        linarith
      · have hbandwidth : 0 < coldBandwidth machine := lt_of_le_of_ne hb (h.1 hlt).symm
        have hterm : 0 < ((map.expertBytesPerToken : ℚ) - map.expertBytesPerToken * f) /
            (coldBandwidth machine * gb) := div_pos hlt (mul_pos hbandwidth hgb)
        linarith

/-- Tokens a second, of the seconds a token takes. -/
def rate (seconds : Option ℚ) : ℚ :=
  seconds.elim 0 fun s => if 0 < s then 1 / s else 0

theorem rate_nonneg (seconds : Option ℚ) : 0 ≤ rate seconds := by
  rcases seconds with _ | s
  · exact le_rfl
  · rw [rate, Option.elim_some]
    split_ifs with hpos
    · exact (one_div_pos.mpr hpos).le
    · exact le_rfl

/-- More experts on the card and fewer on the disk give no fewer tokens. -/
theorem rate_mono (hm : AtLeast better machine) (hpcie : (machine.pcieGbps : ℚ) ≤ hbmGbps)
    (hf : 0 ≤ f) (hf' : f' ≤ 1) (hff : f ≤ f') (hnvme : nvme' ≤ nvme) :
    rate (perTokenSeconds map machine f nvme machine.cpuExpertCompute) ≤
      rate (perTokenSeconds map better f' nvme' better.cpuExpertCompute) := by
  by_cases h : Reads map machine f nvme
  · have h' := h.mono hm hff hnvme
    have hb := (coldBandwidth_bounds hpcie).1
    have hpos := tokenTime_pos_iff hb hf (hff.trans hf') h
    have hpos' := tokenTime_pos_iff (hm.coldBandwidth_eq.symm ▸ hb) (hf.trans hff) hf' h'
    have htime := tokenTime_mono hm hpcie hf' hff hnvme h
    rw [perTokenSeconds_of_reads (hff.trans hf') h, perTokenSeconds_of_reads hf' h', rate, rate,
      Option.elim_some, Option.elim_some]
    by_cases hlt : 0 < tokenTime map machine f nvme
    · have hlt' : 0 < tokenTime map better f' nvme' := hpos'.mpr (hpos.mp hlt)
      rw [if_pos hlt, if_pos hlt']
      exact one_div_le_one_div_of_le hlt' htime
    · rw [if_neg hlt]
      exact rate_nonneg (some _)
  · rw [perTokenSeconds_of_not_reads h]
    exact rate_nonneg _

end Times

theorem tokS_eq_rate (h : Fits map machine req) : (plan map machine req).estimatedTokS =
    rate (perTokenSeconds map machine (hotFraction map machine req) (nvmeExperts map machine req)
      machine.cpuExpertCompute) :=
  (plan_of_fits h).tokS

/-- No worse a verdict, and no lower an estimate. -/
def NoWorse (p q : PlacementPlan) : Prop :=
  q.verdict.rank ≤ p.verdict.rank ∧ q.estimatedTokS ≤ p.estimatedTokS

theorem plan_mono (hm : AtLeast better machine) (hpcie : (machine.pcieGbps : ℚ) ≤ hbmGbps)
    (hr : NoMore less req) : NoWorse (plan map better less) (plan map machine req) := by
  by_cases h : Fits map machine req
  · have h' := fits_mono hm hr h
    constructor
    · rw [(plan_of_fits h).verdict, (plan_of_fits h').verdict]
      exact verdictOf_mono (overflow_mono hm hr) (nvmeExperts_mono hm hr)
    · rw [tokS_eq_rate h, tokS_eq_rate h']
      exact rate_mono hm hpcie hotFraction_bounds.1 hotFraction_bounds.2 (hotFraction_mono hm hr)
        (nvmeExperts_mono hm hr)
  · obtain ⟨hverdict, htok⟩ := plan_of_not_fits h
    rw [NoWorse, hverdict, htok]
    refine ⟨Nat.zero_le _, ?_⟩
    by_cases h' : Fits map better less
    · rw [tokS_eq_rate h']
      exact rate_nonneg _
    · rw [(plan_of_not_fits h').2]

/-- **The planner**: for every model, machine and request, a plan that fits places each expert's
bytes once, takes no more of the cards than they have and leaves the reserve of the memory; and with
more memory, fewer reservations or a shorter context, of the same bandwidths, processor, batch and
cache, the verdict is no worse and the estimate no lower. -/
theorem plan_accounted_mono (map : TensorMap) :
    (∀ machine req, (plan map machine req).verdict ≠ .doesNotFit →
      Accounted map machine req (plan map machine req)) ∧
    ∀ machine better req less, AtLeast better machine → (machine.pcieGbps : ℚ) ≤ hbmGbps →
      NoMore less req → NoWorse (plan map better less) (plan map machine req) :=
  ⟨fun _ _ h => plan_accounted (fits_of_verdict h), fun _ _ _ _ => plan_mono⟩

/-! ### One card -/

/-- One card of 1 GB. -/
def oneCard : Machine :=
  ⟨[1], 16, 8, 5, 26, false, false, false⟩

/-- A dense model of a byte, whose cache takes one a token. -/
def byteModel : TensorMap :=
  ⟨"byte", 1, 0, 1, none, 2⟩

/-- A context of one token, so many at a time. -/
@[grind =]
def batches (batch : ℕ) : PlanRequest :=
  ⟨1, batch, [], true⟩

theorem usable_oneCard (batch : ℕ) : usable oneCard (batches batch) = gb := by
  norm_num [usable, oneCard, batches, Machine.vramGb, Machine.largestGpuGb, PlanRequest.reserved]

theorem mustReside_byteModel (batch : ℕ) :
    mustReside byteModel (batches batch) = 1 + max batch 1 := by
  simp [mustReside, kvCache, byteModel, batches]

theorem byteModel_fits : Fits byteModel oneCard (batches 1) := by
  rw [Fits, usable_oneCard, mustReside_byteModel]
  norm_num [gb]

theorem byteModel_not_fits : ¬Fits byteModel oneCard (batches (2 ^ 31)) := by
  rw [Fits, usable_oneCard, mustReside_byteModel]
  norm_num [gb]

theorem oneCard_atLeast : AtLeast oneCard oneCard :=
  ⟨le_rfl, le_rfl, rfl, rfl, rfl, rfl, rfl, rfl⟩

theorem oneCard_pcie : (oneCard.pcieGbps : ℚ) ≤ hbmGbps := by
  norm_num [oneCard, hbmGbps]

theorem oneCard_verdict : (plan byteModel oneCard (batches 1)).verdict ≠ .doesNotFit := by
  rw [(plan_of_fits byteModel_fits).verdict]
  exact verdictOf_ne _ _

/-- Eight experts to a layer, two of them a token; 8 GB of experts in all. -/
def mixture : TensorMap :=
  ⟨"mixture", 2 ^ 29, 2 ^ 33, 16, some ⟨8, 2, 0⟩, 2⟩

/-- A card twice as large, and more memory. -/
def largerCard : Machine :=
  { oneCard with gpus := [2], ramGb := 32 }

/-- The same request beside something else on the card. -/
def beside : PlanRequest :=
  { batches 1 with reservations := [⟨"pictures", 2 ^ 28⟩] }

theorem mixture_fits : Fits mixture oneCard beside := by
  norm_num [Fits, usable, oneCard, beside, batches, mustReside, kvCache, mixture,
    Machine.vramGb, Machine.largestGpuGb, PlanRequest.reserved, gb]

theorem mixture_planned :
    Accounted mixture oneCard beside (plan mixture oneCard beside) ∧
      NoWorse (plan mixture largerCard (batches 1)) (plan mixture oneCard beside) := by
  refine ⟨(plan_accounted_mono mixture).1 oneCard beside ?_,
    (plan_accounted_mono mixture).2 oneCard largerCard beside (batches 1) ?_ oneCard_pcie ?_⟩
  · rw [(plan_of_fits mixture_fits).verdict]
    exact verdictOf_ne _ _
  · constructor <;> simp [oneCard, largerCard, Machine.totalVramGb]
  · exact ⟨Nat.zero_le _, le_rfl, le_rfl, id⟩

/-- Of two requests on one machine that reserve nothing and ask for one context, the one of many
batches does not fit. -/
theorem batches_worse : AtLeast oneCard oneCard ∧ (oneCard.pcieGbps : ℚ) ≤ hbmGbps ∧
    (batches (2 ^ 31)).reserved ≤ (batches 1).reserved ∧
    (batches (2 ^ 31)).contextLen ≤ (batches 1).contextLen ∧
    ¬NoWorse (plan byteModel oneCard (batches (2 ^ 31))) (plan byteModel oneCard (batches 1)) := by
  refine ⟨oneCard_atLeast, oneCard_pcie, le_rfl, le_rfl, fun h => ?_⟩
  have hrank := h.1
  rw [(plan_of_not_fits byteModel_not_fits).1] at hrank
  rcases hverdict : (plan byteModel oneCard (batches 1)).verdict <;> rw [hverdict] at hrank
  · exact absurd hrank (by decide)
  · exact absurd hrank (by decide)
  · exact absurd hrank (by decide)
  · exact oneCard_verdict hverdict

end LocalSpace.Residency
