import LocalSpace.Dropping
import LocalSpace.Placing
import LocalSpace.Residency
import LocalSpace.Verified
import Mathlib.Data.List.MinMax

/-!
# Which model is offered first

`recommend`: of the models that may be offered, placed on this computer and narrowed to those that
leave room to spare, a default decided by measurement, else the largest that runs well, else the
largest that works, those of a billion parameters before the others, else the smallest that is too
slow. What each filter leaves is stated over the catalog itself (`Left`), and what is given is the
first rung of the ladder that any model left stands on (`Best`). An entry that is not here and has
no repository is nowhere to be fetched from, and no rung is for a parameter count below zero. Where
the layers of a model to place come to none, the program stops at the division and gives nothing.
-/

namespace LocalSpace.Models.Recommending

open Placing

/-- `FITTED_CONTEXT`. -/
def fittedContext : ℕ := 8192

/-- `OTHER_PROGRAMS_MIB`. -/
def otherProgramsMib : ℕ := 3 * 1024

/-- `STILL_FREE_MIB`. -/
def stillFreeMib : ℕ := 3 * 1024

/-- `LOWEST_RUNG_B`. -/
def lowestRungB : ℚ := 1

/-- A pass of the message script on a computer, read by a person. -/
structure Exercise where
  tier : String
  day : String

structure Tensor where
  coreBytes : ℕ
  routedExpertBytes : ℕ
  layers : ℕ
  moe : Option Residency.MoeLayout
  /-- None when unknown. -/
  kvBytesPerTokenFp16 : ℕ

/-- An entry of the catalog with what it is offered by. -/
structure Entry extends CatalogModel where
  paramsB : ℚ
  commercialUse : Bool
  retired : Bool
  exercised : List Exercise
  /-- The plain day of an older entry. -/
  exercisedOn : String
  bytes : ℕ
  contextLen : ℕ
  tensor : Option Tensor
  visionFile : String

namespace Entry

variable (m : Entry)

/-- The day of its latest pass; empty when never. -/
def exercisedDay : String :=
  (m.exercised.map Exercise.day).max?.getD m.exercisedOn

def exercisedFor (tier : String) : Bool :=
  if m.exercised.isEmpty then m.exercisedOn ≠ ""
  else m.exercised.any fun e => e.tier = tier

def tensorMap : Option Residency.TensorMap :=
  m.tensor.map fun t =>
    { modelId := m.id
      coreBytes := t.coreBytes
      routedExpertBytes := t.routedExpertBytes
      layers := t.layers
      moe := t.moe
      kvBytesPerTokenFp16 :=
        if 0 < t.kvBytesPerTokenFp16 then t.kvBytesPerTokenFp16 else t.layers * 4096 }

def visionBytes : ℕ :=
  if m.visionFile = "" then 0 else (m.verify m.visionFile).elim 0 FileCheck.bytes

/-- The model's numbers as `fit` takes them. -/
def shape : Option Shape :=
  m.tensorMap.map fun map =>
    { weightBytes := u64 (map.coreBytes + map.routedExpertBytes)
      activeBytes := u64 (map.coreBytes + map.expertBytesPerToken)
      layers := map.layers
      kvBytesPerTokenFp16 := map.kvBytesPerTokenFp16
      ramOnlyBytes := m.visionBytes }

def ask : Ask where
  contextLen := min m.contextLen fittedContext
  kvQuantized := false

end Entry

/-- A computer as it was found, with what is free where the models are kept. -/
structure Computer extends Hardware where
  diskFreeMib : Option ℕ

/-- The tier of a computer, by the card that would be used. -/
def tierOf (hardware : Hardware) : String :=
  match hardware.card with
  | none => "no card"
  | some gpu =>
    if gpu.totalMib < 7 * 1024 then "4 GB"
    else if gpu.totalMib < 14 * 1024 then "8 GB"
    else if gpu.totalMib < 22 * 1024 then "16 GB"
    else "24 GB"

/-- The entries, the default decided for each tier, and what is known of the folder. -/
structure Catalog where
  models : List Entry
  defaults : String → Option String
  state : Checks.State

section Recommend

variable (F : Floats) (hardware : Computer) (c : Catalog)

/-- Whether a model so placed leaves room to spare; no sum here reaches 64 bits. -/
def fitsWithRoom (placed : Fit) : Bool :=
  placed.verdict ≠ .willNotFit ∧
    placed.ramMib + inAChatMib + ramReserveMib F hardware.toHardware + otherProgramsMib +
      stillFreeMib ≤ hardware.ramTotalMib

def everyday (placed : Fit) : Bool :=
  placed.verdict = .runsWell ∨ placed.verdict = .works

namespace Catalog

def installed (id : String) : Bool :=
  (c.state.installedPath (c.models.map Entry.toCatalogModel) id).isSome

def room (m : Entry) : Bool :=
  c.installed m.id || hardware.diskFreeMib.all fun free => m.bytes / mib < free

@[grind =]
def candidates : List Entry :=
  (c.models.filter fun m => !m.retired).filter fun m => m.commercialUse

def measuredHere : Bool :=
  c.candidates.any fun m => m.exercisedFor (tierOf hardware.toHardware)

/-- The candidates that may be offered first. -/
def offered : List Entry :=
  ((c.candidates.filter fun m =>
    if c.measuredHere hardware then m.exercisedFor (tierOf hardware.toHardware)
    else m.exercisedDay ≠ "").filter fun m => m.repo ≠ "" || c.installed m.id).filter
      (c.room hardware)

/-- Those of some models with tensors, each placed; nothing where one cannot be. -/
@[grind =]
def place : List Entry → Option (List (Entry × Fit))
  | [] => some []
  | m :: rest =>
    match m.shape with
    | none => place rest
    | some shape => do
      let placed ← fit F shape hardware.toHardware m.ask none
      return (m, placed) :: (← place rest)

/-- Those that leave room to spare, where one does. -/
def narrowed (placed : List (Entry × Fit)) : List (Entry × Fit) :=
  let roomy := placed.filter fun p => fitsWithRoom F hardware p.2
  if roomy.isEmpty then placed else roomy

/-- The default decided for this tier, where it is left and runs well or works. -/
def decided (left : List (Entry × Fit)) : Option String :=
  (c.defaults (tierOf hardware.toHardware)).bind fun decided =>
    (left.find? fun p => p.1.id = decided && everyday p.2).map fun p => p.1.id

def largest (left : List (Entry × Fit)) (verdict : Verdict) (fromB : ℚ) : Option String :=
  (lastMax (fun a b => a.1.paramsB ≤ b.1.paramsB)
    (left.filter fun p => p.2.verdict = verdict && fromB ≤ p.1.paramsB)).map fun p => p.1.id

def smallest (left : List (Entry × Fit)) : Option String :=
  ((left.filter fun p => p.2.verdict = .tooSlow).argmin fun p => p.1.bytes).map fun p => p.1.id

/-- The model to start with on this computer. -/
def recommend : Option (Option String) :=
  (place F hardware (c.offered hardware)).map fun placed =>
    let left := narrowed F hardware placed
    (c.decided hardware left).or <|
      (largest left .runsWell lowestRungB).or <|
        (largest left .works lowestRungB).or <|
          (largest left .runsWell 0).or <|
            (largest left .works 0).or <|
              smallest left

end Catalog

end Recommend

/-! ### The rules -/

section Rules

variable (F : Floats) (hardware : Computer) (c : Catalog)

/-- How a model sits on this computer. -/
def Fits (m : Entry) (placed : Fit) : Prop :=
  ∃ shape, m.shape = some shape ∧ fit F shape hardware.toHardware m.ask none = some placed

/-- An entry that is not retired and may be used commercially. -/
structure Candidate (m : Entry) : Prop where
  listed : m ∈ c.models
  current : m.retired = false
  commercial : m.commercialUse = true

/-- On this computer's tier, where some candidate has been there; anywhere otherwise. -/
def Exercised (m : Entry) : Prop :=
  (∃ other, Candidate c other ∧ other.exercisedFor (tierOf hardware.toHardware) = true) ∧
      m.exercisedFor (tierOf hardware.toHardware) = true ∨
    (¬∃ other, Candidate c other ∧ other.exercisedFor (tierOf hardware.toHardware) = true) ∧
      m.exercisedDay ≠ ""

/-- Here, or to be fetched to a disk with room for it. -/
def Available (m : Entry) : Prop :=
  c.installed m.id = true ∨
    m.repo ≠ "" ∧ ∀ free, hardware.diskFreeMib = some free → m.bytes / mib < free

structure Offerable (m : Entry) : Prop extends Candidate c m where
  exercised : Exercised hardware c m
  available : Available hardware c m

/-- A model that may be offered first, as it is placed. -/
structure Placed (p : Entry × Fit) : Prop where
  offerable : Offerable hardware c p.1
  fits : Fits F hardware p.1 p.2

/-- It leaves room to spare, where one does. -/
structure Left (p : Entry × Fit) : Prop extends Placed F hardware c p where
  roomy : (∃ other, Placed F hardware c other ∧ fitsWithRoom F hardware other.2 = true) →
    fitsWithRoom F hardware p.2 = true

/-- The default decided for this tier, where it is left and runs well or works. -/
structure Decided (p : Entry × Fit) : Prop extends Left F hardware c p where
  default : c.defaults (tierOf hardware.toHardware) = some p.1.id
  everyday : everyday p.2 = true

/-- The rungs of the ladder, from the best. -/
def rung (p : Entry × Fit) : ℕ :=
  match p.2.verdict with
  | .runsWell => if lowestRungB ≤ p.1.paramsB then 0 else 2
  | .works => if lowestRungB ≤ p.1.paramsB then 1 else 3
  | .tooSlow => 4
  | .willNotFit => 5

/-- The largest on the first rung that a model left stands on, the smallest file when too slow. -/
structure Best (p : Entry × Fit) : Prop where
  left : Left F hardware c p
  fits : p.2.verdict ≠ .willNotFit
  first : ∀ other, Left F hardware c other → rung p ≤ rung other
  largest : p.2.verdict ≠ .tooSlow →
    ∀ other, Left F hardware c other → rung other = rung p → other.1.paramsB ≤ p.1.paramsB
  smallest : p.2.verdict = .tooSlow →
    ∀ other, Left F hardware c other → rung other = rung p → p.1.bytes ≤ other.1.bytes

end Rules

section Filters

variable {F : Floats} {hardware : Computer} {c : Catalog} {placed left : List (Entry × Fit)}

theorem mem_candidates {m : Entry} : m ∈ c.candidates ↔ Candidate c m := by
  simp only [Catalog.candidates, List.mem_filter, Bool.not_eq_true']
  exact ⟨fun h => ⟨h.1.1, h.1.2, h.2⟩, fun h => ⟨⟨h.listed, h.current⟩, h.commercial⟩⟩

theorem measuredHere_iff : c.measuredHere hardware = true ↔
    ∃ m, Candidate c m ∧ m.exercisedFor (tierOf hardware.toHardware) = true := by
  simp only [Catalog.measuredHere, List.any_eq_true, mem_candidates]

theorem mem_offered {m : Entry} : m ∈ c.offered hardware ↔ Offerable hardware c m := by
  have hexercised : (if c.measuredHere hardware = true
      then m.exercisedFor (tierOf hardware.toHardware)
      else decide (m.exercisedDay ≠ "")) = true ↔ Exercised hardware c m := by
    rw [Exercised, ← measuredHere_iff]
    split_ifs with hhere <;> simp [hhere]
  have hdisk : (hardware.diskFreeMib.all fun free => decide (m.bytes / mib < free)) = true ↔
      ∀ free, hardware.diskFreeMib = some free → m.bytes / mib < free := by
    simp only [Option.all_eq_true, decide_eq_true_eq]
  simp only [Catalog.offered, List.mem_filter, mem_candidates, hexercised, Catalog.room,
    Bool.or_eq_true, decide_eq_true_eq, hdisk]
  constructor
  · rintro ⟨⟨⟨hcandidate, hpassed⟩, hrepo⟩, hroom⟩
    refine ⟨hcandidate, hpassed, ?_⟩
    rcases hroom with hhere | hfree
    · exact .inl hhere
    · exact hrepo.elim (fun hrepo => .inr ⟨hrepo, hfree⟩) .inl
  · rintro ⟨hcandidate, hpassed, havailable⟩
    rcases havailable with hhere | ⟨hrepo, hfree⟩
    · exact ⟨⟨⟨hcandidate, hpassed⟩, .inr hhere⟩, .inl hhere⟩
    · exact ⟨⟨⟨hcandidate, hpassed⟩, .inl hrepo⟩, .inr hfree⟩

/-- What is placed is what has a shape, as it fits. -/
theorem mem_place {models : List Entry} (h : Catalog.place F hardware models = some placed)
    (p : Entry × Fit) : p ∈ placed ↔ p.1 ∈ models ∧ Fits F hardware p.1 p.2 := by
  induction models generalizing placed with
  | nil =>
    obtain rfl : [] = placed := Option.some.inj h
    simp
  | cons m rest ih =>
    rw [Catalog.place] at h
    rcases hshape : m.shape with _ | shape
    · rw [hshape] at h
      rw [ih h, List.mem_cons]
      constructor
      · rintro ⟨hmem, hfits⟩
        exact ⟨.inr hmem, hfits⟩
      · rintro ⟨hmem | hmem, hfits⟩
        · obtain ⟨shape, hsome, -⟩ := hfits
          rw [hmem, hshape] at hsome
          cases hsome
        · exact ⟨hmem, hfits⟩
    · rw [hshape] at h
      simp only [Option.bind_eq_bind, Option.bind_eq_some_iff, Option.pure_def,
        Option.some.injEq] at h
      obtain ⟨sits, hsits, others, hothers, rfl⟩ := h
      rw [List.mem_cons, ih hothers, List.mem_cons]
      constructor
      · rintro (rfl | ⟨hmem, hfits⟩)
        · exact ⟨.inl rfl, shape, hshape, hsits⟩
        · exact ⟨.inr hmem, hfits⟩
      · rintro ⟨hmem | hmem, hfits⟩
        · obtain ⟨shape', hshape', hsits'⟩ := hfits
          rw [hmem, hshape] at hshape'
          obtain rfl := Option.some.inj hshape'
          rw [hmem, hsits] at hsits'
          exact .inl (Prod.ext hmem (Option.some.inj hsits').symm)
        · exact .inr ⟨hmem, hfits⟩

theorem mem_placed (h : Catalog.place F hardware (c.offered hardware) = some placed)
    (p : Entry × Fit) : p ∈ placed ↔ Placed F hardware c p := by
  rw [mem_place h, mem_offered]
  exact ⟨fun h => ⟨h.1, h.2⟩, fun h => ⟨h.offerable, h.fits⟩⟩

/-- **What is left** is what the rules leave. -/
theorem mem_narrowed (h : Catalog.place F hardware (c.offered hardware) = some placed)
    (p : Entry × Fit) : p ∈ Catalog.narrowed F hardware placed ↔ Left F hardware c p := by
  have hplaced := mem_placed h
  rw [Catalog.narrowed]
  split_ifs with hnone
  · rw [List.isEmpty_iff, List.filter_eq_nil_iff] at hnone
    rw [hplaced]
    refine ⟨fun hp => ⟨hp, ?_⟩, fun hp => hp.toPlaced⟩
    rintro ⟨other, hother, hroomy⟩
    exact absurd hroomy (hnone other ((hplaced other).mpr hother))
  · have hroomy : ∃ other, Placed F hardware c other ∧ fitsWithRoom F hardware other.2 = true := by
      rw [List.isEmpty_iff] at hnone
      obtain ⟨other, hother⟩ := List.exists_mem_of_ne_nil _ hnone
      obtain ⟨hmem, hroomy⟩ := List.mem_filter.mp hother
      exact ⟨other, (hplaced other).mp hmem, hroomy⟩
    rw [List.mem_filter, hplaced]
    exact ⟨fun hp => ⟨hp.1, fun _ => hp.2⟩, fun hp => ⟨hp.toPlaced, hp.roomy hroomy⟩⟩

end Filters

/-! ### The ladder -/

section Ladder

variable {F : Floats} {hardware : Computer} {c : Catalog} {left : List (Entry × Fit)}
variable {verdict : Verdict} {fromB : ℚ} {id : String}

theorem largest_some (h : Catalog.largest left verdict fromB = some id) :
    ∃ p ∈ left, p.1.id = id ∧ p.2.verdict = verdict ∧ fromB ≤ p.1.paramsB ∧
      ∀ other ∈ left, other.2.verdict = verdict → fromB ≤ other.1.paramsB →
        other.1.paramsB ≤ p.1.paramsB := by
  obtain ⟨p, hp, rfl⟩ := Option.map_eq_some_iff.mp h
  obtain ⟨hmem, hmost⟩ := lastMax_spec (fun a b => by simp [le_total])
    (fun a b c => by simpa using le_trans) hp
  simp only [List.mem_filter, Bool.and_eq_true, decide_eq_true_eq] at hmem hmost
  exact ⟨p, hmem.1, rfl, hmem.2.1, hmem.2.2, fun other hother hverdict hfrom =>
    hmost other ⟨hother, hverdict, hfrom⟩⟩

theorem largest_none (h : Catalog.largest left verdict fromB = none) :
    ∀ other ∈ left, other.2.verdict = verdict → other.1.paramsB < fromB := by
  intro other hother hverdict
  have hempty := lastMax_eq_none (Option.map_eq_none_iff.mp h)
  rw [List.filter_eq_nil_iff] at hempty
  have hnot := hempty other hother
  simp only [hverdict, decide_true, Bool.true_and, decide_eq_true_eq, not_le] at hnot
  exact hnot

theorem smallest_some (h : Catalog.smallest left = some id) :
    ∃ p ∈ left, p.1.id = id ∧ p.2.verdict = .tooSlow ∧
      ∀ other ∈ left, other.2.verdict = .tooSlow → p.1.bytes ≤ other.1.bytes := by
  obtain ⟨p, hp, rfl⟩ := Option.map_eq_some_iff.mp h
  have hmem := List.argmin_mem hp
  rw [List.mem_filter, decide_eq_true_eq] at hmem
  refine ⟨p, hmem.1, rfl, hmem.2, fun other hother hslow => ?_⟩
  have hin : other ∈ left.filter fun p => p.2.verdict = .tooSlow :=
    List.mem_filter.mpr ⟨hother, decide_eq_true hslow⟩
  exact @List.le_of_mem_argmin _ _ _ (fun p : Entry × Fit => p.1.bytes) _ _ _ hin hp

theorem smallest_none (h : Catalog.smallest left = none) :
    ∀ other ∈ left, other.2.verdict ≠ .tooSlow := by
  intro other hother hslow
  have hempty := List.argmin_eq_none.mp (Option.map_eq_none_iff.mp h)
  rw [List.filter_eq_nil_iff] at hempty
  exact hempty other hother (decide_eq_true hslow)

theorem decided_some (hleft : ∀ p, p ∈ left ↔ Left F hardware c p)
    (h : c.decided hardware left = some id) : ∃ p, Decided F hardware c p ∧ p.1.id = id := by
  obtain ⟨named, hnamed, hfound⟩ := Option.bind_eq_some_iff.mp h
  obtain ⟨p, hp, rfl⟩ := Option.map_eq_some_iff.mp hfound
  have hgood := List.find?_some hp
  rw [Bool.and_eq_true, decide_eq_true_eq] at hgood
  exact ⟨p, ⟨(hleft p).mp (List.mem_of_find?_eq_some hp), hgood.1 ▸ hnamed, hgood.2⟩, rfl⟩

theorem decided_none (hleft : ∀ p, p ∈ left ↔ Left F hardware c p)
    (h : c.decided hardware left = none) : ¬∃ p, Decided F hardware c p := by
  rintro ⟨p, hp⟩
  rw [Catalog.decided, hp.default, Option.bind_some, Option.map_eq_none_iff,
    List.find?_eq_none] at h
  refine h p ((hleft p).mpr hp.toLeft) ?_
  rw [Bool.and_eq_true, decide_eq_true_eq]
  exact ⟨rfl, hp.everyday⟩

/-- No model of a billion parameters or more is passed over for a smaller one. -/
theorem Best.no_larger {p : Entry × Fit} (h : Best F hardware c p)
    (hsmall : p.1.paramsB < lowestRungB) {other : Entry × Fit} (hother : Left F hardware c other)
    (hlarge : lowestRungB ≤ other.1.paramsB) : everyday other.2 = false := by
  have hfirst := h.first other hother
  simp only [rung, if_neg hsmall.not_ge, if_pos hlarge] at hfirst
  rcases hverdict : other.2.verdict <;> rcases hp : p.2.verdict <;>
    simp_all [everyday]

/-- What stands on a rung, by its verdict and its parameters. -/
theorem best_of_largest (hleft : ∀ p, p ∈ left ↔ Left F hardware c p)
    {n : ℕ} (hrung : ∀ p : Entry × Fit, p.2.verdict = verdict → fromB ≤ p.1.paramsB →
      Left F hardware c p → rung p = n)
    (hfits : verdict ≠ .willNotFit) (hquick : verdict ≠ .tooSlow)
    (honly : ∀ p, Left F hardware c p → rung p = n → p.2.verdict = verdict ∧ fromB ≤ p.1.paramsB)
    (hfirst : ∀ p, Left F hardware c p → n ≤ rung p)
    (h : Catalog.largest left verdict fromB = some id) :
    ∃ p, Best F hardware c p ∧ p.1.id = id := by
  obtain ⟨p, hp, hid, hverdict, hfrom, hmost⟩ := largest_some h
  have hpleft := (hleft p).mp hp
  have hpn := hrung p hverdict hfrom hpleft
  refine ⟨p, ⟨hpleft, hverdict ▸ hfits, fun other hother => hpn ▸ hfirst other hother,
    fun _ other hother hsame => ?_, fun hslow => absurd (hverdict.symm.trans hslow) hquick⟩, hid⟩
  obtain ⟨hsameverdict, hsamefrom⟩ := honly other hother (hsame.trans hpn)
  exact hmost other ((hleft other).mpr hother) hsameverdict hsamefrom

/-- What stands on each rung. -/
theorem rung_iff (p : Entry × Fit) :
    (rung p = 0 ↔ p.2.verdict = .runsWell ∧ lowestRungB ≤ p.1.paramsB) ∧
      (rung p = 1 ↔ p.2.verdict = .works ∧ lowestRungB ≤ p.1.paramsB) ∧
      (rung p = 2 ↔ p.2.verdict = .runsWell ∧ p.1.paramsB < lowestRungB) ∧
      (rung p = 3 ↔ p.2.verdict = .works ∧ p.1.paramsB < lowestRungB) ∧
      (rung p = 4 ↔ p.2.verdict = .tooSlow) ∧ (5 ≤ rung p ↔ p.2.verdict = .willNotFit) := by
  by_cases hlarge : lowestRungB ≤ p.1.paramsB <;> rcases hverdict : p.2.verdict <;>
    simp [rung, hverdict, hlarge, not_le.mp, not_lt.mpr]

/-- What the ladder gives of what is left, without a decided default. -/
def climbed (left : List (Entry × Fit)) : Option String :=
  (Catalog.largest left .runsWell lowestRungB).or <|
    (Catalog.largest left .works lowestRungB).or <|
      (Catalog.largest left .runsWell 0).or <|
        (Catalog.largest left .works 0).or <|
          Catalog.smallest left

/-- The ladder gives the best of what is left, and nothing where none of it fits. -/
theorem climbed_best (hleft : ∀ p, p ∈ left ↔ Left F hardware c p)
    (hparams : ∀ p ∈ left, 0 ≤ p.1.paramsB) :
    (∀ id, climbed left = some id → ∃ p, Best F hardware c p ∧ p.1.id = id) ∧
      (climbed left = none → ∀ p, Left F hardware c p → p.2.verdict = .willNotFit) := by
  have hnonneg : ∀ p, Left F hardware c p → 0 ≤ p.1.paramsB :=
    fun p hp => hparams p ((hleft p).mpr hp)
  rw [climbed]
  rcases h0 : Catalog.largest left .runsWell lowestRungB with _ | first
  rotate_left
  · refine ⟨fun id hid => ?_, by rintro ⟨⟩⟩
    obtain rfl : first = id := Option.some.inj hid
    exact best_of_largest hleft (fun p hv hf _ => (rung_iff _).1.mpr ⟨hv, hf⟩) (by rintro ⟨⟩) (by rintro ⟨⟩)
      (fun p _ hp => (rung_iff _).1.mp hp) (fun p _ => Nat.zero_le _) h0
  have hr0 : ∀ p, Left F hardware c p → 1 ≤ rung p := by
    intro p hp
    by_contra hlt
    obtain ⟨hv, hf⟩ := (rung_iff _).1.mp (by omega : rung p = 0)
    exact absurd hf (largest_none h0 p ((hleft p).mpr hp) hv).not_ge
  rcases h1 : Catalog.largest left .works lowestRungB with _ | first
  rotate_left
  · refine ⟨fun id hid => ?_, by rintro ⟨⟩⟩
    obtain rfl : first = id := Option.some.inj hid
    exact best_of_largest hleft (fun p hv hf _ => (rung_iff _).2.1.mpr ⟨hv, hf⟩) (by rintro ⟨⟩) (by rintro ⟨⟩)
      (fun p _ hp => (rung_iff _).2.1.mp hp) hr0 h1
  have hr1 : ∀ p, Left F hardware c p → 2 ≤ rung p := by
    intro p hp
    by_contra hlt
    have hpos := hr0 p hp
    obtain ⟨hv, hf⟩ := (rung_iff _).2.1.mp (by omega : rung p = 1)
    exact absurd hf (largest_none h1 p ((hleft p).mpr hp) hv).not_ge
  rcases h2 : Catalog.largest left .runsWell 0 with _ | first
  rotate_left
  · refine ⟨fun id hid => ?_, by rintro ⟨⟩⟩
    obtain rfl : first = id := Option.some.inj hid
    exact best_of_largest hleft
      (fun p hv _ hp => (rung_iff _).2.2.1.mpr ⟨hv, largest_none h0 p ((hleft p).mpr hp) hv⟩)
      (by rintro ⟨⟩) (by rintro ⟨⟩)
      (fun p hp hsame => ⟨((rung_iff _).2.2.1.mp hsame).1, hnonneg p hp⟩) hr1 h2
  have hr2 : ∀ p, Left F hardware c p → 3 ≤ rung p := by
    intro p hp
    by_contra hlt
    have hpos := hr1 p hp
    obtain ⟨hv, -⟩ := (rung_iff _).2.2.1.mp (by omega : rung p = 2)
    exact absurd (hnonneg p hp) (largest_none h2 p ((hleft p).mpr hp) hv).not_ge
  rcases h3 : Catalog.largest left .works 0 with _ | first
  rotate_left
  · refine ⟨fun id hid => ?_, by rintro ⟨⟩⟩
    obtain rfl : first = id := Option.some.inj hid
    exact best_of_largest hleft
      (fun p hv _ hp => (rung_iff _).2.2.2.1.mpr ⟨hv, largest_none h1 p ((hleft p).mpr hp) hv⟩)
      (by rintro ⟨⟩) (by rintro ⟨⟩)
      (fun p hp hsame => ⟨((rung_iff _).2.2.2.1.mp hsame).1, hnonneg p hp⟩) hr2 h3
  have hr3 : ∀ p, Left F hardware c p → 4 ≤ rung p := by
    intro p hp
    by_contra hlt
    have hpos := hr2 p hp
    obtain ⟨hv, -⟩ := (rung_iff _).2.2.2.1.mp (by omega : rung p = 3)
    exact absurd (hnonneg p hp) (largest_none h3 p ((hleft p).mpr hp) hv).not_ge
  simp only [Option.none_or]
  refine ⟨fun id hid => ?_, fun hnone p hp => (rung_iff _).2.2.2.2.2.mp ?_⟩
  · obtain ⟨p, hp, hid, hslow, hleast⟩ := smallest_some hid
    refine ⟨p, ⟨(hleft p).mp hp, by rw [hslow]; rintro ⟨⟩, fun other hother => ?_,
      fun hquick => absurd hslow hquick, fun _ other hother hsame => ?_⟩, hid⟩
    · rw [(rung_iff _).2.2.2.2.1.mpr hslow]
      exact hr3 other hother
    · rw [(rung_iff _).2.2.2.2.1.mpr hslow] at hsame
      exact hleast other ((hleft other).mpr hother) ((rung_iff _).2.2.2.2.1.mp hsame)
  · have hnot := smallest_none hnone p ((hleft p).mpr hp)
    have hpos := hr3 p hp
    have hne : rung p ≠ 4 := fun hsame => hnot ((rung_iff _).2.2.2.2.1.mp hsame)
    omega

/-- **The model offered first obeys every standing rule**, where no parameter count is below zero:
it is one of those left, the decided default of the tier before any other, else the best of the
ladder; none is given where none of those left fits. -/
theorem recommend_best {given : Option String} (hparams : ∀ m ∈ c.models, 0 ≤ m.paramsB)
    (h : c.recommend F hardware = some given) :
    (∀ id, given = some id → ∃ p, Left F hardware c p ∧ p.1.id = id) ∧
      ((∃ p, Decided F hardware c p) → ∃ p, Decided F hardware c p ∧ given = some p.1.id) ∧
      ((¬∃ p, Decided F hardware c p) → ∀ id, given = some id →
        ∃ p, Best F hardware c p ∧ p.1.id = id ∧
          (p.1.paramsB < lowestRungB → ∀ other, Left F hardware c other →
            lowestRungB ≤ other.1.paramsB → everyday other.2 = false)) ∧
      (given = none ↔ ∀ p, Left F hardware c p → p.2.verdict = .willNotFit) := by
  obtain ⟨placed, hplaced, hgiven⟩ := Option.map_eq_some_iff.mp h
  have hleft := mem_narrowed hplaced
  obtain ⟨hbest, hnone⟩ := climbed_best hleft
    fun p hp => hparams p.1 ((hleft p).mp hp).offerable.listed
  dsimp only at hgiven
  rcases hdecided : c.decided hardware (Catalog.narrowed F hardware placed) with _ | first
  · rw [hdecided, Option.none_or, ← climbed] at hgiven
    have hno := decided_none hleft hdecided
    refine ⟨fun id hid => ?_, fun hsome => absurd hsome hno, fun _ id hid => ?_,
      fun hgone => hnone (hgiven.trans hgone), fun hall => ?_⟩
    · obtain ⟨p, hp, hpid⟩ := hbest id (hgiven.trans hid)
      exact ⟨p, hp.left, hpid⟩
    · obtain ⟨p, hp, hpid⟩ := hbest id (hgiven.trans hid)
      exact ⟨p, hp, hpid, fun hsmall other hother => hp.no_larger hsmall hother⟩
    · rcases hgot : given with _ | id
      · rfl
      · obtain ⟨p, hp, -⟩ := hbest id (hgiven.trans hgot)
        exact absurd (hall p hp.left) hp.fits
  · rw [hdecided, Option.some_or] at hgiven
    obtain ⟨p, hp, hid⟩ := decided_some hleft hdecided
    refine ⟨fun id hsome => ⟨p, hp.toLeft, ?_⟩, fun _ => ⟨p, hp, ?_⟩, fun hno => absurd ⟨p, hp⟩ hno,
      fun hgone => ?_, fun hall => ?_⟩
    · rw [hid]
      exact Option.some.inj (hgiven.trans hsome)
    · rw [hid]
      exact hgiven.symm
    · rw [hgone] at hgiven
      cases hgiven
    · have hgood := hp.everyday
      rw [everyday, hall p hp.toLeft] at hgood
      exact absurd hgood (by decide)

end Ladder

namespace Sample

/-- A quarter of the memory is kept free, and what fits is read as fast as it is written. -/
def floats : Floats where
  gpuMarginShare n := n / 10
  ramReserveShare n := n / 4
  shown _ _ _ fits := if fits then (8, 9) else (0, 0)
  part _ _ := "Some of it"

/-- A laptop without a card. -/
def laptop : Computer where
  gpus := []
  ramTotalMib := 16384
  ramFreeMib := 8192
  diskFreeMib := some 100000

/-- An entry of so many billion parameters, as many GB of tensors, to be fetched from somewhere. -/
@[grind =]
def entry (id repo : String) (paramsB : ℚ) : Entry where
  id := id
  repo := repo
  path := none
  files := ["model.gguf"]
  verify _ := none
  paramsB := paramsB
  commercialUse := true
  retired := false
  exercised := []
  exercisedOn := "2026-10-09"
  bytes := 1024 * mib
  contextLen := 4096
  tensor := some ⟨1024 * mib, 0, 24, none, 4096⟩
  visionFile := ""

/-- A catalog of some entries, none of which is here. -/
def catalog (models : List Entry) : Catalog where
  models := models
  defaults _ := none
  state := .start ⟨fun _ => none, fun _ => ⟨[], 0⟩, 0⟩

/-- Two models that run well. -/
def twoSizes : Catalog :=
  catalog [entry "half" "org/half" (1 / 2), entry "three" "org/three" 3]

/-- The larger comes first. -/
theorem larger_first : ∃ p, Best floats laptop twoSizes p ∧ p.1.id = "three" := by
  have hgiven : twoSizes.recommend floats laptop = some (some "three") := by
    decide +kernel
  have hparams : ∀ m ∈ twoSizes.models, 0 ≤ m.paramsB := by
    intro m hm
    rcases List.mem_pair.mp hm with rfl | rfl
    · exact (by norm_num : (0 : ℚ) ≤ 1 / 2)
    · exact (by norm_num : (0 : ℚ) ≤ 3)
  obtain ⟨p, hp, hid, -⟩ := (recommend_best hparams hgiven).2.2.1
    (by rintro ⟨p, hp⟩; cases hp.default) "three" rfl
  exact ⟨p, hp, hid⟩

/-- The numbers of every entry here. -/
def shape : Shape :=
  ⟨1024 * mib, 1024 * mib, 24, 4096, 0⟩

theorem entry_shape (id repo : String) (paramsB : ℚ) :
    (entry id repo paramsB).shape = some shape := by
  have htotal : u64 (1024 * mib + 0) = 1024 * mib := by decide
  rw [Entry.shape, Entry.tensorMap, entry, Option.map_some, Option.map_some, htotal]
  exact congrArg (fun n => some (Shape.mk (1024 * mib) n 24 4096 0)) htotal

/-- It runs well here, with room to spare. -/
theorem entry_fits (id repo : String) (paramsB : ℚ) : ∃ placed,
    Fits floats laptop (entry id repo paramsB) placed ∧ fitsWithRoom floats laptop placed = true ∧
      placed.verdict = .runsWell := by
  have hwell : (fit floats shape laptop.toHardware ⟨4096, false⟩ none).any (fun placed =>
      fitsWithRoom floats laptop placed && placed.verdict = .runsWell) = true := by
    decide
  obtain ⟨placed, hfit, hgood⟩ := (Option.any_eq_true _ _).mp hwell
  rw [Bool.and_eq_true, decide_eq_true_eq] at hgood
  exact ⟨placed, ⟨shape, entry_shape id repo paramsB, hfit⟩, hgood⟩

theorem entry_candidate (id repo : String) (paramsB : ℚ) :
    Candidate (catalog [entry id repo paramsB]) (entry id repo paramsB) :=
  ⟨List.mem_singleton_self _, rfl, rfl⟩

theorem entry_exercised (id repo : String) (paramsB : ℚ) :
    Exercised laptop (catalog [entry id repo paramsB]) (entry id repo paramsB) := by
  have hday : ∀ tier, (entry id repo paramsB).exercisedFor tier = true := by
    intro tier
    have hplain : (entry id repo paramsB).exercisedFor tier = decide ("2026-10-09" ≠ "") := rfl
    rw [hplain]
    decide
  exact .inl ⟨⟨_, entry_candidate id repo paramsB, hday _⟩, hday _⟩

theorem entry_room (id repo : String) (paramsB : ℚ) :
    ∀ free, laptop.diskFreeMib = some free → (entry id repo paramsB).bytes / mib < free := by
  intro free hfree
  obtain rfl : 100000 = free := Option.some.inj hfree
  exact (by decide : 1024 * mib / mib < 100000)

/-- A model of a negative size that runs well is left, and one that runs well may be without a
repository: neither is ever given. -/
theorem left_and_not_given :
    (∃ p, Left floats laptop (catalog [entry "below" "org/below" (-1)]) p ∧
      p.2.verdict = .runsWell ∧
      (catalog [entry "below" "org/below" (-1)]).recommend floats laptop = some none) ∧
    ∃ m placed, Candidate (catalog [entry "lost" "" 3]) m ∧
      Exercised laptop (catalog [entry "lost" "" 3]) m ∧
      (∀ free, laptop.diskFreeMib = some free → m.bytes / mib < free) ∧
      Fits floats laptop m placed ∧ fitsWithRoom floats laptop placed = true ∧
      placed.verdict = .runsWell ∧
      (catalog [entry "lost" "" 3]).recommend floats laptop = some none := by
  obtain ⟨below, hbelow, hroomy, hwell⟩ := entry_fits "below" "org/below" (-1)
  obtain ⟨lost, hlost, hspare, hquick⟩ := entry_fits "lost" "" 3
  have hrepo : (entry "below" "org/below" (-1)).repo ≠ "" := by decide
  refine ⟨⟨(entry "below" "org/below" (-1), below), ⟨⟨⟨entry_candidate _ _ _,
    entry_exercised _ _ _, .inr ⟨hrepo, entry_room _ _ _⟩⟩, hbelow⟩, fun _ => hroomy⟩, hwell, ?_⟩,
    entry "lost" "" 3, lost, entry_candidate _ _ _, entry_exercised _ _ _, entry_room _ _ _, hlost,
    hspare, hquick, ?_⟩
  all_goals decide

end Sample

end LocalSpace.Models.Recommending
