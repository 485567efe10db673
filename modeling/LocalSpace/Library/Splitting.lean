import Mathlib.Algebra.BigOperators.Group.List.Basic
import Mathlib.Algebra.Order.Group.Nat
import Mathlib.Algebra.Order.Ring.Int
import Mathlib.Data.Nat.Find

/-!
# Splitting with a stack

The places of a list are kept or dropped. An interval between two kept places may be split at a place
inside it, which is then kept too; the two halves wait on a stack. The loop ends, and between two
kept places that follow one another nothing is left to split.
-/

namespace Library

/-- A place that is kept. -/
def KeptAt (keep : List Bool) (i : ℕ) : Prop :=
  keep[i]? = some true

/-- Two kept places, and none between them. -/
structure Gap (keep : List Bool) (a b : ℕ) : Prop where
  lt : a < b
  left : KeptAt keep a
  right : KeptAt keep b
  between : ∀ i, a < i → i < b → ¬KeptAt keep i

/-- The loop: `none` where the fuel does not last. -/
def splitLoop (split : ℕ → ℕ → Option ℕ) : ℕ → List Bool → List (ℕ × ℕ) → Option (List Bool)
  | _, keep, [] => some keep
  | 0, _, _ :: _ => none
  | fuel + 1, keep, (a, b) :: stack =>
    match split a b with
    | some i => splitLoop split fuel (keep.set i true) ((i, b) :: (a, i) :: stack)
    | none => splitLoop split fuel keep stack

/-- What is left to do: an interval of `k` steps is taken up at most `2 * k - 1` times. -/
def splitCost (stack : List (ℕ × ℕ)) : ℕ :=
  (stack.map fun p => 2 * (p.2 - p.1) - 1).sum

/-- The stack holds gaps, from the right to the left, and all that can still be split. -/
structure Splits (split : ℕ → ℕ → Option ℕ) (keep : List Bool) (stack : List (ℕ × ℕ)) : Prop where
  gaps : ∀ p ∈ stack, Gap keep p.1 p.2
  sorted : stack.Pairwise fun p q => q.2 ≤ p.1
  done : ∀ a b, Gap keep a b → (a, b) ∈ stack ∨ split a b = none

variable {split : ℕ → ℕ → Option ℕ} {keep : List Bool} {stack : List (ℕ × ℕ)} {a b i j : ℕ}

theorem kept_set (h : i < keep.length) : KeptAt (keep.set i true) j ↔ j = i ∨ KeptAt keep j := by
  rw [KeptAt, KeptAt, List.getElem?_set]
  by_cases hj : i = j
  · subst hj
    simp [h]
  · simp [hj, Ne.symm hj]

theorem KeptAt.lt_length (h : KeptAt keep i) : i < keep.length :=
  (List.getElem?_eq_some_iff.mp h).1

/-- An interval that is not split is done. -/
theorem Splits.pop (h : Splits split keep ((a, b) :: stack)) (hnone : split a b = none) :
    Splits split keep stack where
  gaps p hp := h.gaps p (List.mem_cons_of_mem _ hp)
  sorted := (List.pairwise_cons.mp h.sorted).2
  done c d hgap := by
    rcases h.done c d hgap with hmem | hdone
    · rcases List.mem_cons.mp hmem with heq | hmem
      · cases heq
        exact .inr hnone
      · exact .inl hmem
    · exact .inr hdone

/-- **An interval is split**: its halves are gaps, and the others are as they were. -/
theorem Splits.push (h : Splits split keep ((a, b) :: stack)) (hlow : a < i) (hhigh : i < b) :
    Splits split (keep.set i true) ((i, b) :: (a, i) :: stack) := by
  have hgap : Gap keep a b := h.gaps (a, b) List.mem_cons_self
  have hlength : i < keep.length := hhigh.trans hgap.right.lt_length
  obtain ⟨hbelow, hsorted⟩ := List.pairwise_cons.mp h.sorted
  have hset {j : ℕ} : KeptAt (keep.set i true) j ↔ j = i ∨ KeptAt keep j := kept_set hlength
  refine ⟨?_, ?_, ?_⟩
  · intro p hp
    rcases List.mem_cons.mp hp with rfl | hp
    · refine ⟨hhigh, hset.mpr (.inl rfl), hset.mpr (.inr hgap.right), fun j hij hjb hj => ?_⟩
      rcases hset.mp hj with rfl | hj
      · exact absurd hij (lt_irrefl j)
      · exact hgap.between j (hlow.trans hij) hjb hj
    · rcases List.mem_cons.mp hp with rfl | hp
      · refine ⟨hlow, hset.mpr (.inr hgap.left), hset.mpr (.inl rfl), fun j haj hji hj => ?_⟩
        rcases hset.mp hj with rfl | hj
        · exact absurd hji (lt_irrefl j)
        · exact hgap.between j haj (hji.trans hhigh) hj
      · -- the other intervals lie to the left of the one that is split
        have hother := h.gaps p (List.mem_cons_of_mem _ hp)
        have hle : p.2 ≤ a := hbelow p hp
        refine ⟨hother.lt, hset.mpr (.inr hother.left), hset.mpr (.inr hother.right),
          fun j hpj hjp hj => ?_⟩
        rcases hset.mp hj with rfl | hj
        · omega
        · exact hother.between j hpj hjp hj
  · refine List.pairwise_cons.mpr ⟨fun q hq => ?_, List.pairwise_cons.mpr ⟨fun q hq => ?_, hsorted⟩⟩
    · rcases List.mem_cons.mp hq with rfl | hq
      · exact le_rfl
      · exact (hbelow q hq).trans hlow.le
    · exact hbelow q hq
  · intro c d hnew
    have hbetween : ∀ j, c < j → j < d → ¬KeptAt keep j := fun j hcj hjd hj =>
      hnew.between j hcj hjd (hset.mpr (.inr hj))
    rcases hset.mp hnew.left with rfl | hc
    · -- a gap that begins at the new place ends where the interval did
      rcases hset.mp hnew.right with rfl | hd
      · exact absurd hnew.lt (lt_irrefl d)
      · rcases lt_trichotomy d b with hdb | rfl | hbd
        · exact absurd hd (hgap.between d (hlow.trans hnew.lt) hdb)
        · exact .inl List.mem_cons_self
        · exact absurd hgap.right (hbetween b hhigh hbd)
    · rcases hset.mp hnew.right with rfl | hd
      · rcases lt_trichotomy c a with hca | rfl | hac
        · exact absurd hgap.left (hbetween a hca hlow)
        · exact .inl (List.mem_cons_of_mem _ List.mem_cons_self)
        · exact absurd hc (hgap.between c hac (hnew.lt.trans hhigh))
      · rcases h.done c d ⟨hnew.lt, hc, hd, hbetween⟩ with hmem | hdone
        · rcases List.mem_cons.mp hmem with heq | hmem
          · cases heq
            exact absurd (hset.mpr (.inl rfl)) (hnew.between i hlow hhigh)
          · exact .inl (List.mem_cons_of_mem _ (List.mem_cons_of_mem _ hmem))
        · exact .inr hdone

/-- **The loop ends**, with what was kept before it, and with nothing left to split. -/
theorem splitLoop_ends (hinside : ∀ a b i, split a b = some i → a < i ∧ i < b) {n : ℕ}
    (hn : splitCost stack ≤ n) (h : Splits split keep stack) :
    ∃ keep', (∀ fuel ≥ n, splitLoop split fuel keep stack = some keep') ∧
      keep'.length = keep.length ∧ (∀ i, KeptAt keep i → KeptAt keep' i) ∧
      ∀ a b, Gap keep' a b → split a b = none := by
  induction n generalizing keep stack with
  | zero =>
    cases stack with
    | nil =>
      exact ⟨keep, fun fuel _ => by rw [splitLoop], rfl, fun _ hi => hi, fun a b hgap =>
        (h.done a b hgap).resolve_left List.not_mem_nil⟩
    | cons p stack =>
      have hlt := (h.gaps p List.mem_cons_self).lt
      simp only [splitCost, List.map_cons, List.sum_cons] at hn
      omega
  | succ n ih =>
    cases stack with
    | nil =>
      exact ⟨keep, fun fuel _ => by rw [splitLoop], rfl, fun _ hi => hi, fun a b hgap =>
        (h.done a b hgap).resolve_left List.not_mem_nil⟩
    | cons p stack =>
      obtain ⟨a, b⟩ := p
      have hgap : Gap keep a b := h.gaps (a, b) List.mem_cons_self
      have hlt := hgap.lt
      simp only [splitCost, List.map_cons, List.sum_cons] at hn
      cases hsplit : split a b with
      | none =>
        have hcost : splitCost stack ≤ n := by
          rw [splitCost]
          omega
        obtain ⟨keep', hrun, hlength, hkept, hdone⟩ := ih hcost (h.pop hsplit)
        refine ⟨keep', fun fuel hfuel => ?_, hlength, hkept, hdone⟩
        obtain ⟨fuel, rfl⟩ : ∃ k, fuel = k + 1 := ⟨fuel - 1, by omega⟩
        rw [splitLoop, hsplit]
        exact hrun fuel (by omega)
      | some i =>
        obtain ⟨hlow, hhigh⟩ := hinside a b i hsplit
        have hcost : splitCost ((i, b) :: (a, i) :: stack) ≤ n := by
          simp only [splitCost, List.map_cons, List.sum_cons]
          omega
        obtain ⟨keep', hrun, hlength, hkept, hdone⟩ := ih hcost (h.push hlow hhigh)
        refine ⟨keep', fun fuel hfuel => ?_, hlength.trans List.length_set, fun j hj => ?_, hdone⟩
        · obtain ⟨fuel, rfl⟩ : ∃ k, fuel = k + 1 := ⟨fuel - 1, by omega⟩
          rw [splitLoop, hsplit]
          exact hrun fuel (by omega)
        · exact hkept j ((kept_set (hhigh.trans hgap.right.lt_length)).mpr (.inr hj))

/-- A place between the ends that is not kept lies in a gap. -/
theorem exists_gap (hleft : KeptAt keep a) (hright : KeptAt keep b) (hai : a < i) (hib : i < b)
    (hi : ¬KeptAt keep i) : ∃ c d, Gap keep c d ∧ c < i ∧ i < d := by
  classical
  obtain ⟨c, ⟨hc, hci⟩, hlast⟩ : ∃ c, (KeptAt keep c ∧ c < i) ∧
      ∀ j, c < j → j < i → ¬KeptAt keep j := by
    have hexists : ∃ k, KeptAt keep (i - 1 - k) ∧ i - 1 - k < i := ⟨i - 1 - a, by
      rw [show i - 1 - (i - 1 - a) = a by omega]
      exact ⟨hleft, hai⟩⟩
    refine ⟨_, Nat.find_spec hexists, fun j hlow hhigh hj => ?_⟩
    refine Nat.find_min hexists (m := i - 1 - j) (by omega) ?_
    rw [show i - 1 - (i - 1 - j) = j by omega]
    exact ⟨hj, hhigh⟩
  obtain ⟨d, ⟨hd, hid⟩, hfirst⟩ : ∃ d, (KeptAt keep d ∧ i < d) ∧
      ∀ j, i < j → j < d → ¬KeptAt keep j := by
    have hexists : ∃ d, KeptAt keep d ∧ i < d := ⟨b, hright, hib⟩
    exact ⟨_, Nat.find_spec hexists, fun j hlow hhigh hj =>
      Nat.find_min hexists hhigh ⟨hj, hlow⟩⟩
  refine ⟨c, d, ⟨hci.trans hid, hc, hd, fun j hcj hjd hj => ?_⟩, hci, hid⟩
  rcases lt_trichotomy j i with hji | rfl | hij
  · exact hlast j hcj hji hj
  · exact hi hj
  · exact hfirst j hij hjd hj

end Library
