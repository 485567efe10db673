import Mathlib.Data.Rat.Cast.Order
import Mathlib.Tactic.FieldSimp
import Mathlib.Tactic.Linarith
import Mathlib.Tactic.Ring
import LocalSpace.Library.Splitting

/-!
# Simplified strokes

`editor.ts`: a stroke without the points that do not matter (`simplify`), by Ramer, Douglas and
Peucker: between two points that are kept the one farthest from the line through them is kept too,
while it is farther than a bound. Distances are compared squared. What is dropped is near that line;
where a stroke doubles back it need not be near the segment.
-/

namespace LocalSpace

namespace Strokes

open Library

/-! ### The stroke -/

def distanceSq (p q : ℚ × ℚ) : ℚ :=
  (p.1 - q.1) * (p.1 - q.1) + (p.2 - q.2) * (p.2 - q.2)

/-- `perpendicular`, squared. -/
def perpendicularSq (p a b : ℚ × ℚ) : ℚ :=
  let dx := b.1 - a.1
  let dy := b.2 - a.2
  let len := dx * dx + dy * dy
  if len = 0 then distanceSq p a
  else
    let cross := dy * p.1 - dx * p.2 + b.1 * a.2 - b.2 * a.1
    cross * cross / len

/-- The point at an index that the stroke has. -/
def pointAt (points : List (ℚ × ℚ)) (i : ℕ) : ℚ × ℚ :=
  points.getD i (0, 0)

/-- The point that is farthest from the line between two others, where it is off it at all. -/
def worst (points : List (ℚ × ℚ)) (a b : ℕ) : ℚ × Option ℕ :=
  (List.range' (a + 1) (b - (a + 1))).foldl (fun w i =>
    let d := perpendicularSq (pointAt points i) (pointAt points a) (pointAt points b)
    if d > w.1 then (d, some i) else w) (0, none)

/-- Where an interval is split: at a point that is farther from the line than `epsilon`. -/
def splitAt (points : List (ℚ × ℚ)) (epsilon : ℚ) (a b : ℕ) : Option ℕ :=
  let (d, index) := worst points a b
  if epsilon < 0 ∨ epsilon * epsilon < d then index else none

/-- The points that are kept. -/
def pick (keep : List Bool) (points : List (ℚ × ℚ)) : List (ℚ × ℚ) :=
  ((points.zip keep).filter Prod.snd).map Prod.fst

/-- `simplify`; `none` where the fuel does not last. -/
def simplify (fuel : ℕ) (points : List (ℚ × ℚ)) (epsilon : ℚ) : Option (List (ℚ × ℚ)) :=
  if points.length ≤ 2 then some points
  else
    let keep := ((List.replicate points.length false).set 0 true).set (points.length - 1) true
    (splitLoop (splitAt points epsilon) fuel keep [(0, points.length - 1)]).map fun keep =>
      pick keep points

/-! ### What is promised of it -/

/-- On a line through two points, or at them where they coincide. -/
def along (a b : ℚ × ℚ) (t : ℚ) : ℚ × ℚ :=
  (a.1 + t * (b.1 - a.1), a.2 + t * (b.2 - a.2))

/-- Within `epsilon` of the segment between two points. -/
def NearSegment (epsilon : ℚ) (p a b : ℚ × ℚ) : Prop :=
  0 ≤ epsilon ∧ ∃ t, 0 ≤ t ∧ t ≤ 1 ∧ distanceSq p (along a b t) ≤ epsilon * epsilon

/-- Within `epsilon` of the line through two points; on it where `epsilon` is negative. -/
def NearLine (epsilon : ℚ) (p a b : ℚ × ℚ) : Prop :=
  ∃ t, distanceSq p (along a b t) ≤ max epsilon 0 * max epsilon 0

/-- Some of a stroke's points in their order, its ends among them, with every point that is dropped
near the two kept points around it. -/
structure Simplified (near : ℚ × ℚ → ℚ × ℚ → ℚ × ℚ → Prop) (points kept : List (ℚ × ℚ)) :
    Prop where
  sublist : kept.Sublist points
  first : kept.head? = points.head?
  last : kept.getLast? = points.getLast?
  dropped : ∃ keep : List Bool, keep.length = points.length ∧ kept = pick keep points ∧
    ∀ i < points.length, ¬KeptAt keep i → ∃ a b, Gap keep a b ∧ a < i ∧ i < b ∧
      near (pointAt points i) (pointAt points a) (pointAt points b)

/-- It ends, with these points. -/
def Simplifies (points : List (ℚ × ℚ)) (epsilon : ℚ) (kept : List (ℚ × ℚ)) : Prop :=
  ∃ n, ∀ fuel ≥ n, simplify fuel points epsilon = some kept

section Geometry

variable {p a b : ℚ × ℚ} {epsilon : ℚ}

/-- **The distance to the line** is the one to a point of it. -/
theorem exists_foot (p a b : ℚ × ℚ) :
    ∃ t, distanceSq p (along a b t) = perpendicularSq p a b := by
  rw [perpendicularSq]
  split
  · refine ⟨0, ?_⟩
    simp [along]
  · rename_i hlen
    obtain ⟨px, py⟩ := p
    obtain ⟨ax, ay⟩ := a
    obtain ⟨cx, cy⟩ := b
    refine ⟨((px - ax) * (cx - ax) + (py - ay) * (cy - ay)) /
      ((cx - ax) * (cx - ax) + (cy - ay) * (cy - ay)), ?_⟩
    have hlen : (cx - ax) ^ 2 + (cy - ay) ^ 2 ≠ 0 := by
      rwa [sq, sq]
    simp only [distanceSq, along]
    field_simp
    ring

theorem nearLine_of_le (h : perpendicularSq p a b ≤ max epsilon 0 * max epsilon 0) :
    NearLine epsilon p a b := by
  obtain ⟨t, ht⟩ := exists_foot p a b
  exact ⟨t, ht ▸ h⟩

end Geometry

section Splitting

variable {points : List (ℚ × ℚ)} {epsilon : ℚ} {a b i : ℕ}

/-- **The loop over an interval**: what it finds is the greatest distance, of a point it has seen. -/
theorem foldl_worst (f : ℕ → ℚ) (l : List ℕ) (w : ℚ × Option ℕ) :
    let found := l.foldl (fun w i => if f i > w.1 then (f i, some i) else w) w
    w.1 ≤ found.1 ∧ (∀ i ∈ l, f i ≤ found.1) ∧
      (found = w ∨ ∃ i ∈ l, found = (f i, some i) ∧ w.1 < f i) := by
  induction l generalizing w with
  | nil => simp
  | cons i l ih =>
    dsimp only [List.foldl_cons]
    split
    · rename_i hlt
      obtain ⟨hle, hall, hfound⟩ := ih (f i, some i)
      refine ⟨hlt.le.trans hle, fun j hj => ?_, .inr ?_⟩
      · rcases List.mem_cons.mp hj with rfl | hj
        · exact hle
        · exact hall j hj
      · rcases hfound with heq | ⟨j, hj, heq, hltj⟩
        · exact ⟨i, List.mem_cons_self, heq, hlt⟩
        · exact ⟨j, List.mem_cons_of_mem _ hj, heq, lt_trans hlt hltj⟩
    · rename_i hnot
      obtain ⟨hle, hall, hfound⟩ := ih w
      refine ⟨hle, fun j hj => ?_, ?_⟩
      · rcases List.mem_cons.mp hj with rfl | hj
        · exact (not_lt.mp hnot).trans hle
        · exact hall j hj
      · rcases hfound with heq | ⟨j, hj, heq, hltj⟩
        · exact .inl heq
        · exact .inr ⟨j, List.mem_cons_of_mem _ hj, heq, hltj⟩

theorem mem_inside : i ∈ List.range' (a + 1) (b - (a + 1)) ↔ a < i ∧ i < b := by
  rw [List.mem_range'_1]
  omega

theorem splitAt_inside (points : List (ℚ × ℚ)) (epsilon : ℚ) (a b i : ℕ)
    (h : splitAt points epsilon a b = some i) : a < i ∧ i < b := by
  obtain ⟨-, -, hfound⟩ := foldl_worst
    (fun i => perpendicularSq (pointAt points i) (pointAt points a) (pointAt points b))
    (List.range' (a + 1) (b - (a + 1))) (0, none)
  have hindex : (worst points a b).2 = some i := by
    rw [splitAt] at h
    dsimp only at h
    split at h
    · exact h
    · cases h
  rcases hfound with heq | ⟨j, hj, heq, -⟩
  · rw [worst, heq] at hindex
    cases hindex
  · rw [worst, heq] at hindex
    cases hindex
    exact mem_inside.mp hj

/-- **Where nothing is split** every point between is near the line. -/
theorem near_of_splitAt (h : splitAt points epsilon a b = none) (hai : a < i) (hib : i < b) :
    NearLine epsilon (pointAt points i) (pointAt points a) (pointAt points b) := by
  obtain ⟨-, hall, hfound⟩ := foldl_worst
    (fun i => perpendicularSq (pointAt points i) (pointAt points a) (pointAt points b))
    (List.range' (a + 1) (b - (a + 1))) (0, none)
  have hle := hall i (mem_inside.mpr ⟨hai, hib⟩)
  refine nearLine_of_le (hle.trans ?_)
  change (worst points a b).1 ≤ _
  rcases hfound with heq | ⟨j, hj, heq, -⟩
  · rw [worst, heq]
    exact mul_self_nonneg _
  · -- a point is off the line, but not too far
    rw [splitAt, worst] at h
    dsimp only at h
    rw [heq] at h
    split at h
    · cases h
    · rename_i hnot
      rw [not_or, not_lt, not_lt] at hnot
      rw [worst, heq, max_eq_left hnot.1]
      exact hnot.2

end Splitting

/-! ### What is kept -/

section Keeping

variable {points kept : List (ℚ × ℚ)} {keep : List Bool} {epsilon : ℚ} {i : ℕ}

theorem pick_sublist (h : keep.length = points.length) : (pick keep points).Sublist points := by
  have hall : (points.zip keep).map Prod.fst = points := List.map_fst_zip h.ge
  have hsome : (pick keep points).Sublist ((points.zip keep).map Prod.fst) :=
    List.filter_sublist.map _
  rwa [hall] at hsome

theorem head?_pick (h : KeptAt keep 0) : (pick keep points).head? = points.head? := by
  cases keep with
  | nil => cases h
  | cons k keep =>
    cases h
    cases points with
    | nil => rfl
    | cons p points => rfl

theorem getLast?_pick (hlength : keep.length = points.length) (h : KeptAt keep (points.length - 1)) :
    (pick keep points).getLast? = points.getLast? := by
  rcases List.eq_nil_or_concat' points with rfl | ⟨points, p, rfl⟩
  · rfl
  · rcases List.eq_nil_or_concat' keep with rfl | ⟨keep, k, rfl⟩
    · simp at hlength
    · have hsame : keep.length = points.length := by
        simpa using hlength
      have hk : k = true := by
        simpa [KeptAt, ← hsame] using h
      subst hk
      rw [pick, List.zip_append hsame.symm]
      simp

theorem pick_true (points : List (ℚ × ℚ)) :
    pick (List.replicate points.length true) points = points := by
  induction points with
  | nil => rfl
  | cons p points ih => exact congrArg (p :: ·) ih

/-- A short stroke is kept. -/
theorem simplified_self (near : ℚ × ℚ → ℚ × ℚ → ℚ × ℚ → Prop) (points : List (ℚ × ℚ)) :
    Simplified near points points where
  sublist := List.Sublist.refl points
  first := rfl
  last := rfl
  dropped := by
    refine ⟨List.replicate points.length true, List.length_replicate, (pick_true points).symm,
      fun i hi hnot => absurd ?_ hnot⟩
    rw [KeptAt, List.getElem?_replicate, if_pos hi]

/-- At first the ends are kept, and no other point. -/
theorem kept_ends {n : ℕ} (hn : 2 < n) :
    KeptAt (((List.replicate n false).set 0 true).set (n - 1) true) i ↔ i = n - 1 ∨ i = 0 := by
  have hnone : ¬KeptAt (List.replicate n false) i := by
    rw [KeptAt, List.getElem?_replicate]
    split <;> simp
  have hfirst : 0 < (List.replicate n false).length := by
    rw [List.length_replicate]
    omega
  have hlast : n - 1 < ((List.replicate n false).set 0 true).length := by
    rw [List.length_set, List.length_replicate]
    omega
  rw [kept_set hlast, kept_set hfirst]
  simp [hnone]

theorem splits_ends (split : ℕ → ℕ → Option ℕ) {n : ℕ} (hn : 2 < n) :
    Splits split (((List.replicate n false).set 0 true).set (n - 1) true) [(0, n - 1)] where
  gaps p hp := by
    cases List.mem_singleton.mp hp
    refine ⟨?_, (kept_ends hn).mpr (.inr rfl), (kept_ends hn).mpr (.inl rfl),
      fun i hlow hhigh hi => ?_⟩
    · dsimp only
      omega
    · rcases (kept_ends hn).mp hi with rfl | rfl
      · exact lt_irrefl _ hhigh
      · exact lt_irrefl _ hlow
  sorted := List.pairwise_singleton _ _
  done a b hgap := by
    have hlt := hgap.lt
    rcases (kept_ends hn).mp hgap.left with rfl | rfl
    · rcases (kept_ends hn).mp hgap.right with rfl | rfl <;> omega
    · rcases (kept_ends hn).mp hgap.right with rfl | rfl
      · exact .inl List.mem_cons_self
      · omega

/-- **A stroke is simplified**: the loop ends, its points are some of the stroke's in their order,
from its first to its last, and every point that is dropped is near the line through the two kept
points around it. -/
theorem simplify_simplifies (points : List (ℚ × ℚ)) (epsilon : ℚ) :
    ∃ kept, Simplifies points epsilon kept ∧ Simplified (NearLine epsilon) points kept := by
  by_cases hshort : points.length ≤ 2
  · exact ⟨points, ⟨0, fun fuel _ => if_pos hshort⟩, simplified_self _ points⟩
  · have hn : 2 < points.length := not_le.mp hshort
    obtain ⟨keep, hrun, hlength, hkept, hdone⟩ :=
      splitLoop_ends (splitAt_inside points epsilon) le_rfl
        (splits_ends (splitAt points epsilon) hn)
    rw [List.length_set, List.length_set, List.length_replicate] at hlength
    have hfirst : KeptAt keep 0 := hkept 0 ((kept_ends hn).mpr (.inr rfl))
    have hlast : KeptAt keep (points.length - 1) := hkept _ ((kept_ends hn).mpr (.inl rfl))
    refine ⟨pick keep points, ⟨splitCost [(0, points.length - 1)], fun fuel hfuel => ?_⟩,
      pick_sublist hlength, head?_pick hfirst, getLast?_pick hlength hlast, keep, hlength, rfl,
      fun i hi hnot => ?_⟩
    · rw [simplify, if_neg hshort]
      dsimp only
      rw [hrun fuel hfuel]
      rfl
    · have hi0 : i ≠ 0 := fun h => hnot (h ▸ hfirst)
      have hin : i ≠ points.length - 1 := fun h => hnot (h ▸ hlast)
      obtain ⟨a, b, hgap, hai, hib⟩ :=
        exists_gap hfirst hlast (Nat.pos_of_ne_zero hi0) (by omega) hnot
      exact ⟨a, b, hgap, hai, hib, near_of_splitAt (hdone a b hgap) hai hib⟩

end Keeping

/-! ### A stroke that doubles back -/

section Three

variable {p q r : ℚ × ℚ} {epsilon : ℚ} {near : ℚ × ℚ → ℚ × ℚ → ℚ × ℚ → Prop}

theorem simplify_three (h : splitAt [p, q, r] epsilon 0 2 = none) (k : ℕ) :
    simplify (k + 1) [p, q, r] epsilon = some [p, r] := by
  simp [simplify, splitLoop, h, pick]

/-- The point that is dropped of three is near those that are kept. -/
theorem near_of_three (hpq : q ≠ p) (hqr : q ≠ r) (h : Simplified near [p, q, r] [p, r]) :
    near q p r := by
  obtain ⟨keep, hlength, hkept, hdropped⟩ := h.dropped
  have hnot : ¬KeptAt keep 1 := by
    intro hone
    have hmem : q ∈ pick keep [p, q, r] := by
      obtain ⟨hlt, hone⟩ := List.getElem?_eq_some_iff.mp hone
      refine List.mem_map.mpr ⟨(q, true), List.mem_filter.mpr ⟨?_, rfl⟩, rfl⟩
      refine List.mem_iff_getElem.mpr ⟨1, by simp [hlt], ?_⟩
      simp [hone]
    rw [← hkept] at hmem
    simp [hpq, hqr] at hmem
  obtain ⟨a, b, hgap, ha, hb, hnear⟩ := hdropped 1 (by simp) hnot
  have hb' := hgap.right.lt_length
  rw [hlength] at hb'
  obtain rfl : a = 0 := by
    omega
  obtain rfl : b = 2 := by
    simp only [List.length_cons, List.length_nil] at hb'
    omega
  exact hnear

theorem not_near_segment (hpq : q ≠ p) (hqr : q ≠ r)
    (hsplit : splitAt [p, q, r] epsilon 0 2 = none) (hnot : ¬NearSegment epsilon q p r) :
    ¬∃ kept, Simplifies [p, q, r] epsilon kept ∧
      Simplified (NearSegment epsilon) [p, q, r] kept := by
  rintro ⟨kept, ⟨n, hn⟩, hsimplified⟩
  have hrun := hn (n + 1) (Nat.le_succ n)
  rw [simplify_three hsplit] at hrun
  cases hrun
  exact hnot (near_of_three hpq hqr hsimplified)

end Three

/-- The tip of a stroke that doubles back is dropped, far from the segment that is left; and where
the bound is negative, a point on the line. -/
theorem tip_dropped :
    (¬∃ kept, Simplifies [(0, 0), (10, 0), (5, 0)] 1 kept ∧
      Simplified (NearSegment 1) [(0, 0), (10, 0), (5, 0)] kept) ∧
    ¬∃ kept, Simplifies [(0, 0), (1, 0), (2, 0)] (-1) kept ∧
      Simplified (NearSegment (-1)) [(0, 0), (1, 0), (2, 0)] kept := by
  constructor
  · refine not_near_segment (by decide) (by decide) (by decide +kernel) ?_
    rintro ⟨-, t, ht0, ht1, hle⟩
    simp only [distanceSq, along] at hle
    nlinarith
  · refine not_near_segment (by decide) (by decide) (by decide +kernel) ?_
    rintro ⟨hneg, -⟩
    linarith

end Strokes

end LocalSpace
