import Mathlib.Algebra.Order.Ring.Abs
import Mathlib.Tactic.Positivity
import Mathlib.Tactic.Ring
import LocalSpace.Following

/-!
# Picking

`hit.ts`: what is under a point is looked for among the nodes whose indexed boxes overlap a square
around it, as far as a line is hit from. Filled shapes are hit within that reach of their boxes;
a frame's title stands further above its box, and a line at the reach exactly is only touched.
-/

namespace LocalSpace

namespace Canvas

/-! ### Distances -/

/-- The square of a distance. -/
def distance2 (a b : Point) : ℚ :=
  (a.1 - b.1) ^ 2 + (a.2 - b.2) ^ 2

/-- The square of the distance to a segment. -/
def segmentDistance2 (p a b : Point) : ℚ :=
  let dx := b.1 - a.1
  let dy := b.2 - a.2
  let len2 := dx * dx + dy * dy
  if len2 = 0 then distance2 p a
  else
    let t := max 0 (min 1 (((p.1 - a.1) * dx + (p.2 - a.2) * dy) / len2))
    distance2 p (a.1 + t * dx, a.2 + t * dy)

/-- The square of the distance to a polyline; there is none to no points. -/
def polylineDistance2 (p : Point) : List Point → Option ℚ
  | [q] => some (distance2 p q)
  | pts => ((pts.zip pts.tail).map fun s => segmentDistance2 p s.1 s.2).min?

/-- Whether a polyline is so near: distances are compared by their squares. -/
def within (p : Point) (pts : List Point) (reach : ℚ) : Bool :=
  (polylineDistance2 p pts).any fun d => 0 ≤ reach ∧ d ≤ reach ^ 2

def ellipseContains (b : Box) (p : Point) : Bool :=
  if b.w ≤ 0 ∨ b.h ≤ 0 then false
  else
    let c := centre b
    ((p.1 - c.1) / (b.w / 2)) ^ 2 + ((p.2 - c.2) / (b.h / 2)) ^ 2 ≤ 1

/-- The point at `t` along the cubic from `a` to `b` through `c1` and `c2`. -/
def cubicPoint (a c1 c2 b : Point) (t : ℚ) : Point :=
  let u := 1 - t
  let w0 := u * u * u
  let w1 := 3 * u * u * t
  let w2 := 3 * u * t * t
  let w3 := t * t * t
  (w0 * a.1 + w1 * c1.1 + w2 * c2.1 + w3 * b.1, w0 * a.2 + w1 * c1.2 + w2 * c2.2 + w3 * b.2)

def cubicPoints (a c1 c2 b : Point) : List Point :=
  (List.range 17).map fun i : Nat => cubicPoint a c1 c2 b ((i : ℚ) / 16)

/-! ### Hits -/

section Hits

variable (D : Layouts) (nodes : List Node)

/-- The arrow as a polyline: its two ends, or its curve between two shapes. -/
def arrowPoints (arrow : Node) : List Point :=
  let (a, b) := endpoints D nodes arrow
  if ((truthy arrow.fromId).bind (Scene.get nodes)).isSome ∧
      ((truthy arrow.toId).bind (Scene.get nodes)).isSome then
    let dx := b.1 - a.1
    let dy := b.2 - a.2
    if |dy| ≤ |dx| then cubicPoints a (a.1 + dx / 2, a.2) (b.1 - dx / 2, b.2) b
    else cubicPoints a (a.1, a.2 + dy / 2) (b.1, b.2 - dy / 2) b
  else [a, b]

/-- Whether a point is on a node: inside a filled shape, near a line, on a frame's edge. -/
def nodeHit (n : Node) (p : Point) (tolerance : ℚ) : Bool :=
  let b := nodeBox n
  match n.kind with
  | .sticky | .rect | .text => containsPoint (expand b tolerance) p
  | .ellipse => ellipseContains (expand b tolerance) p
  | .arrow => within p (arrowPoints D nodes n) (tolerance + 3)
  | .ink => within p n.points (tolerance + 3)
  | .frame =>
    let onEdge := containsPoint b p ∧ !containsPoint (expand b (-tolerance * 2)) p
    let onTitle := b.x ≤ p.1 ∧ p.1 ≤ b.x + max 60 (min b.w 200) ∧ b.y - 22 ≤ p.2 ∧ p.2 < b.y
    onEdge ∨ onTitle

/-- The square around a point as far as a line is hit from. -/
def probe (p : Point) (tolerance : ℚ) : Box :=
  ⟨p.1 - tolerance - 3, p.2 - tolerance - 3, (tolerance + 3) * 2, (tolerance + 3) * 2⟩

namespace Retained

variable (s : Retained)

/-- The nodes whose boxes touch a box, bottom to top. -/
def query (b : Box) : List Node :=
  Scene.all ((s.index.search b).filterMap (Scene.get s.nodes))

/-- The topmost node under a point. -/
def hitTest (p : Point) (tolerance : ℚ) : Option Node :=
  (s.query (probe p tolerance)).reverse.find? fun n => nodeHit D s.nodes n p tolerance

/-- The last node in drawing order, of all the nodes, that a point is on. -/
def picked (p : Point) (tolerance : ℚ) : Option Node :=
  (Scene.all s.nodes).reverse.find? fun n => nodeHit D s.nodes n p tolerance

end Retained

/-- A node whose box is in reach of a point that hits it: a filled shape; a frame, where its title
is not too far above its box or beside it; a line, where its box is not exactly at the reach. -/
def Reached (n : Node) (p : Point) (tolerance : ℚ) : Prop :=
  let reach := tolerance + 3
  let b := boundsOf D nodes n
  match n.kind with
  | .sticky | .rect | .text | .ellipse => True
  | .frame => n.y < p.2 + reach ∧ p.1 - reach < n.x + n.w ∧ p.2 - reach < n.y + n.h
  | .arrow | .ink => b.x ≠ p.1 + reach ∧ b.x + b.w ≠ p.1 - reach ∧ b.y ≠ p.2 + reach ∧
      b.y + b.h ≠ p.2 - reach

end Hits

/-! ### What is near a line is near its box -/

section Near

variable {p q a b : Point} {r t : ℚ} {pts : List Point} {box : Box}

/-- A point between the sides of a box. -/
def Inside (box : Box) (q : Point) : Prop :=
  (box.x ≤ q.1 ∧ q.1 ≤ box.x + box.w) ∧ box.y ≤ q.2 ∧ q.2 ≤ box.y + box.h

theorem between {x y lo hi : ℚ} (ht : 0 ≤ t) (ht' : t ≤ 1) (hx : lo ≤ x ∧ x ≤ hi)
    (hy : lo ≤ y ∧ y ≤ hi) : lo ≤ x + t * (y - x) ∧ x + t * (y - x) ≤ hi := by
  constructor
  · nlinarith [mul_nonneg ht (sub_nonneg.mpr hy.1), mul_nonneg (sub_nonneg.mpr ht') (sub_nonneg.mpr hx.1)]
  · nlinarith [mul_nonneg ht (sub_nonneg.mpr hy.2), mul_nonneg (sub_nonneg.mpr ht') (sub_nonneg.mpr hx.2)]

/-- The nearest point of a segment. -/
theorem exists_segment (p a b : Point) : ∃ t, 0 ≤ t ∧ t ≤ 1 ∧
    segmentDistance2 p a b = distance2 p (a.1 + t * (b.1 - a.1), a.2 + t * (b.2 - a.2)) := by
  rw [segmentDistance2]
  dsimp only
  split
  · refine ⟨0, le_refl 0, zero_le_one, ?_⟩
    rw [zero_mul, zero_mul, add_zero, add_zero]
  · exact ⟨_, le_max_left _ _, max_le zero_le_one (min_le_left _ _), rfl⟩

/-- What is so near a polyline in a box is so near a point of the box. -/
theorem within_inside (h : within p pts r = true) (hpts : ∀ q ∈ pts, Inside box q) :
    ∃ q, Inside box q ∧ 0 ≤ r ∧ distance2 p q ≤ r ^ 2 := by
  rw [within, Option.any_eq_true] at h
  obtain ⟨d, hd, hnear⟩ := h
  obtain ⟨hr, hle⟩ := of_decide_eq_true hnear
  have hsegments : ((pts.zip pts.tail).map fun s => segmentDistance2 p s.1 s.2).min? = some d →
      ∃ q, Inside box q ∧ 0 ≤ r ∧ distance2 p q ≤ r ^ 2 := by
    intro hmin
    obtain ⟨⟨a, b⟩, hab, rfl⟩ := List.mem_map.mp (List.min?_mem hmin)
    obtain ⟨ha, hb⟩ := List.of_mem_zip hab
    obtain ⟨t, ht, ht', heq⟩ := exists_segment p a b
    obtain ⟨hax, hay⟩ := hpts a ha
    obtain ⟨hbx, hby⟩ := hpts b (List.mem_of_mem_tail hb)
    have hinside : Inside box (a.1 + t * (b.1 - a.1), a.2 + t * (b.2 - a.2)) :=
      ⟨between ht ht' hax hbx, between ht ht' hay hby⟩
    rw [heq] at hle
    exact ⟨_, hinside, hr, hle⟩
  rw [polylineDistance2.eq_def] at hd
  split at hd
  · next q =>
    cases hd
    exact ⟨q, hpts q List.mem_cons_self, hr, hle⟩
  · exact hsegments hd

theorem near_inside (hq : Inside box q) (hr : 0 ≤ r) (hd : distance2 p q ≤ r ^ 2) :
    (box.x ≤ p.1 + r ∧ p.1 - r ≤ box.x + box.w) ∧ box.y ≤ p.2 + r ∧ p.2 - r ≤ box.y + box.h := by
  have hx : |p.1 - q.1| ≤ r := by
    refine abs_le_of_sq_le_sq ?_ hr
    rw [distance2] at hd
    nlinarith [sq_nonneg (p.2 - q.2)]
  have hy : |p.2 - q.2| ≤ r := by
    refine abs_le_of_sq_le_sq ?_ hr
    rw [distance2] at hd
    nlinarith [sq_nonneg (p.1 - q.1)]
  obtain ⟨hx1, hx2⟩ := abs_le.mp hx
  obtain ⟨hy1, hy2⟩ := abs_le.mp hy
  obtain ⟨⟨hb1, hb2⟩, hb3, hb4⟩ := hq
  exact ⟨⟨by linarith, by linarith⟩, by linarith, by linarith⟩

/-- The square around a point overlaps a box where each side is in reach. -/
theorem intersects_probe {tolerance : ℚ} : intersects box (probe p tolerance) = true ↔
    box.x < p.1 + (tolerance + 3) ∧ p.1 - (tolerance + 3) < box.x + box.w ∧
      box.y < p.2 + (tolerance + 3) ∧ p.2 - (tolerance + 3) < box.y + box.h := by
  rw [intersects_iff, probe]
  dsimp only
  have hx : p.1 - tolerance - 3 + (tolerance + 3) * 2 = p.1 + (tolerance + 3) := by ring
  have hy : p.2 - tolerance - 3 + (tolerance + 3) * 2 = p.2 + (tolerance + 3) := by ring
  have hx' : p.1 - tolerance - 3 = p.1 - (tolerance + 3) := by ring
  have hy' : p.2 - tolerance - 3 = p.2 - (tolerance + 3) := by ring
  rw [hx, hy, hx', hy']

/-- A hit on a line in a box: the box is in reach, and the square around the point overlaps it
unless a side is at the reach exactly. -/
theorem intersects_line {tolerance : ℚ} (h : within p pts (tolerance + 3) = true)
    (hpts : ∀ q ∈ pts, Inside box q) : intersects box (probe p tolerance) = true ↔
      box.x ≠ p.1 + (tolerance + 3) ∧ box.x + box.w ≠ p.1 - (tolerance + 3) ∧
        box.y ≠ p.2 + (tolerance + 3) ∧ box.y + box.h ≠ p.2 - (tolerance + 3) := by
  obtain ⟨q, hq, hr, hd⟩ := within_inside h hpts
  obtain ⟨⟨hx, hx'⟩, hy, hy'⟩ := near_inside hq hr hd
  rw [intersects_probe]
  constructor
  · rintro ⟨h1, h2, h3, h4⟩
    exact ⟨h1.ne, h2.ne', h3.ne, h4.ne'⟩
  · rintro ⟨h1, h2, h3, h4⟩
    exact ⟨lt_of_le_of_ne hx h1, lt_of_le_of_ne hx' h2.symm, lt_of_le_of_ne hy h3,
      lt_of_le_of_ne hy' h4.symm⟩

/-- A cubic stays between what its four points are between. -/
theorem cubic_between {a c1 c2 b lo hi : ℚ} (ht : 0 ≤ t) (ht' : t ≤ 1) (ha : lo ≤ a ∧ a ≤ hi)
    (hc1 : lo ≤ c1 ∧ c1 ≤ hi) (hc2 : lo ≤ c2 ∧ c2 ≤ hi) (hb : lo ≤ b ∧ b ≤ hi) :
    let u := 1 - t
    lo ≤ u * u * u * a + 3 * u * u * t * c1 + 3 * u * t * t * c2 + t * t * t * b ∧
      u * u * u * a + 3 * u * u * t * c1 + 3 * u * t * t * c2 + t * t * t * b ≤ hi := by
  intro u
  have hu : 0 ≤ u := sub_nonneg.mpr ht'
  have hone : u * u * u + 3 * u * u * t + 3 * u * t * t + t * t * t = 1 := by
    change (1 - t) * (1 - t) * (1 - t) + 3 * (1 - t) * (1 - t) * t + 3 * (1 - t) * t * t +
      t * t * t = 1
    ring
  have h0 : 0 ≤ u * u * u := by positivity
  have h1 : 0 ≤ 3 * u * u * t := by positivity
  have h2 : 0 ≤ 3 * u * t * t := by positivity
  have h3 : 0 ≤ t * t * t := by positivity
  constructor
  · calc lo = (u * u * u + 3 * u * u * t + 3 * u * t * t + t * t * t) * lo := by
          rw [hone, one_mul]
      _ = u * u * u * lo + 3 * u * u * t * lo + 3 * u * t * t * lo + t * t * t * lo := by ring
      _ ≤ _ := add_le_add (add_le_add (add_le_add (mul_le_mul_of_nonneg_left ha.1 h0)
          (mul_le_mul_of_nonneg_left hc1.1 h1)) (mul_le_mul_of_nonneg_left hc2.1 h2))
          (mul_le_mul_of_nonneg_left hb.1 h3)
  · calc _ ≤ u * u * u * hi + 3 * u * u * t * hi + 3 * u * t * t * hi + t * t * t * hi :=
          add_le_add (add_le_add (add_le_add (mul_le_mul_of_nonneg_left ha.2 h0)
          (mul_le_mul_of_nonneg_left hc1.2 h1)) (mul_le_mul_of_nonneg_left hc2.2 h2))
          (mul_le_mul_of_nonneg_left hb.2 h3)
      _ = (u * u * u + 3 * u * u * t + 3 * u * t * t + t * t * t) * hi := by ring
      _ = hi := by rw [hone, one_mul]

theorem inside_cubicPoints (c1 c2 : Point) (ha : Inside box a) (hc1 : Inside box c1)
    (hc2 : Inside box c2) (hb : Inside box b) : ∀ q ∈ cubicPoints a c1 c2 b, Inside box q := by
  intro q hq
  obtain ⟨i, hi, rfl⟩ := List.mem_map.mp hq
  have hle : (i : ℚ) ≤ 16 := by
    have hnat : i < 17 := List.mem_range.mp hi
    exact_mod_cast Nat.le_of_lt_succ hnat
  have ht : (0 : ℚ) ≤ (i : ℚ) / 16 := div_nonneg (Nat.cast_nonneg i) (by norm_num)
  have ht' : (i : ℚ) / 16 ≤ 1 := by
    rw [div_le_one (by norm_num)]
    exact hle
  exact ⟨cubic_between ht ht' ha.1 hc1.1 hc2.1 hb.1, cubic_between ht ht' ha.2 hc1.2 hc2.2 hb.2⟩

end Near

section Lines

variable {D : Layouts} {nodes : List Node} {n : Node} {p : Point} {tolerance : ℚ}

/-- The box between two points, at least 1 by 1. -/
theorem inside_ends (a b : Point) :
    Inside ⟨min a.1 b.1, min a.2 b.2, max 1 |a.1 - b.1|, max 1 |a.2 - b.2|⟩ a ∧
      Inside ⟨min a.1 b.1, min a.2 b.2, max 1 |a.1 - b.1|, max 1 |a.2 - b.2|⟩ b := by
  have hside : ∀ x y : ℚ, x ≤ min x y + max 1 |x - y| ∧ y ≤ min x y + max 1 |x - y| := by
    intro x y
    have hmost : |x - y| ≤ max 1 |x - y| := le_max_right _ _
    obtain hxy | hxy := le_total x y
    · rw [min_eq_left hxy]
      rw [abs_of_nonpos (sub_nonpos.mpr hxy)] at hmost ⊢
      exact ⟨by linarith [le_max_left (1 : ℚ) (-(x - y))], by linarith⟩
    · rw [min_eq_right hxy]
      rw [abs_of_nonneg (sub_nonneg.mpr hxy)] at hmost ⊢
      exact ⟨by linarith, by linarith [le_max_left (1 : ℚ) (x - y)]⟩
  exact ⟨⟨⟨min_le_left _ _, (hside _ _).1⟩, min_le_left _ _, (hside _ _).1⟩,
    ⟨min_le_right _ _, (hside _ _).2⟩, min_le_right _ _, (hside _ _).2⟩

/-- An arrow's line is in its box. -/
theorem inside_arrow (h : n.kind = .arrow) :
    ∀ q ∈ arrowPoints D nodes n, Inside (boundsOf D nodes n) q := by
  intro q hq
  rw [boundsOf, h]
  dsimp only
  rw [arrowPoints] at hq
  obtain ⟨ha, hb⟩ := inside_ends (endpoints D nodes n).1 (endpoints D nodes n).2
  cases hends : endpoints D nodes n with
  | mk a b =>
    rw [hends] at ha hb hq
    dsimp only at ha hb hq ⊢
    have hhalf : (0 : ℚ) ≤ 1 / 2 ∧ (1 : ℚ) / 2 ≤ 1 := by norm_num
    have hx1 : a.1 + (b.1 - a.1) / 2 = a.1 + 1 / 2 * (b.1 - a.1) := by ring
    have hx2 : b.1 - (b.1 - a.1) / 2 = b.1 + 1 / 2 * (a.1 - b.1) := by ring
    have hy1 : a.2 + (b.2 - a.2) / 2 = a.2 + 1 / 2 * (b.2 - a.2) := by ring
    have hy2 : b.2 - (b.2 - a.2) / 2 = b.2 + 1 / 2 * (a.2 - b.2) := by ring
    split at hq
    · split at hq
      · refine inside_cubicPoints (a.1 + (b.1 - a.1) / 2, a.2)
          (b.1 - (b.1 - a.1) / 2, b.2) ha ⟨?_, ha.2⟩ ⟨?_, hb.2⟩ hb q hq
        · rw [hx1]
          exact between hhalf.1 hhalf.2 ha.1 hb.1
        · rw [hx2]
          exact between hhalf.1 hhalf.2 hb.1 ha.1
      · refine inside_cubicPoints (a.1, a.2 + (b.2 - a.2) / 2)
          (b.1, b.2 - (b.2 - a.2) / 2) ha ⟨ha.1, ?_⟩ ⟨hb.1, ?_⟩ hb q hq
        · rw [hy1]
          exact between hhalf.1 hhalf.2 ha.2 hb.2
        · rw [hy2]
          exact between hhalf.1 hhalf.2 hb.2 ha.2
    · obtain rfl | hq := List.mem_cons.mp hq
      · exact ha
      · rw [List.mem_singleton.mp hq]
        exact hb

theorem foldl_min {l : List Point} {f : Point → ℚ} {x : ℚ} :
    l.foldl (fun m q => min m (f q)) x ≤ x ∧ ∀ q ∈ l, l.foldl (fun m q => min m (f q)) x ≤ f q := by
  induction l generalizing x with
  | nil => exact ⟨le_refl x, fun _ h => nomatch h⟩
  | cons a l ih =>
    obtain ⟨hfirst, hrest⟩ := ih (x := min x (f a))
    refine ⟨hfirst.trans (min_le_left _ _), fun q hq => ?_⟩
    obtain rfl | hq := List.mem_cons.mp hq
    · exact hfirst.trans (min_le_right _ _)
    · exact hrest q hq

theorem foldl_max {l : List Point} {f : Point → ℚ} {x : ℚ} :
    x ≤ l.foldl (fun m q => max m (f q)) x ∧ ∀ q ∈ l, f q ≤ l.foldl (fun m q => max m (f q)) x := by
  induction l generalizing x with
  | nil => exact ⟨le_refl x, fun _ h => nomatch h⟩
  | cons a l ih =>
    obtain ⟨hfirst, hrest⟩ := ih (x := max x (f a))
    refine ⟨(le_max_left _ _).trans hfirst, fun q hq => ?_⟩
    obtain rfl | hq := List.mem_cons.mp hq
    · exact (le_max_right _ _).trans hfirst
    · exact hrest q hq

/-- A stroke is in its box. -/
theorem inside_around (p : Point) (ps : List Point) : ∀ q ∈ p :: ps, Inside (around p ps) q := by
  have hwide : ∀ lo hi v : ℚ, v ≤ hi → v ≤ lo + max 1 (hi - lo) := fun lo hi v hv => by
    linarith [le_max_right 1 (hi - lo)]
  intro q hq
  obtain rfl | hq := List.mem_cons.mp hq
  · exact ⟨⟨foldl_min.1, hwide _ _ _ foldl_max.1⟩, foldl_min.1, hwide _ _ _ foldl_max.1⟩
  · exact ⟨⟨foldl_min.2 q hq, hwide _ _ _ (foldl_max.2 q hq)⟩, foldl_min.2 q hq,
      hwide _ _ _ (foldl_max.2 q hq)⟩

end Lines

/-! ### What is hit is in reach -/

section Reach

variable {D : Layouts} {nodes : List Node} {n : Node} {p : Point} {tolerance : ℚ}

/-- A point in a box that is made larger. -/
theorem containsPoint_expand {b : Box} {d : ℚ} : containsPoint (expand b d) p = true ↔
    b.x - d ≤ p.1 ∧ p.1 ≤ b.x + b.w + d ∧ b.y - d ≤ p.2 ∧ p.2 ≤ b.y + b.h + d := by
  rw [containsPoint, decide_eq_true_eq, expand]
  dsimp only
  have hx : b.x - d + (b.w + d * 2) = b.x + b.w + d := by ring
  have hy : b.y - d + (b.h + d * 2) = b.y + b.h + d := by ring
  rw [hx, hy]

/-- Around a box, as far as the tolerance, the box is in reach. -/
theorem intersects_filled {b : Box} (h : containsPoint (expand b tolerance) p = true) :
    intersects b (probe p tolerance) = true := by
  obtain ⟨h1, h2, h3, h4⟩ := containsPoint_expand.mp h
  exact intersects_probe.mpr ⟨by linarith, by linarith, by linarith, by linarith⟩

theorem containsPoint_of_ellipse {b : Box} (h : ellipseContains b p = true) :
    containsPoint b p = true := by
  rw [ellipseContains] at h
  split at h
  · cases h
  · next hsize =>
    rw [not_or, not_le, not_le] at hsize
    have hsum := of_decide_eq_true h
    have hside : ∀ {v c half : ℚ}, 0 < half → ((v - c) / half) ^ 2 ≤ 1 →
        c - half ≤ v ∧ v ≤ c + half := by
      intro v c half hhalf hsq
      have habs : |(v - c) / half| ≤ 1 :=
        abs_le_of_sq_le_sq (hsq.trans_eq (one_pow 2).symm) zero_le_one
      rw [abs_div, abs_of_pos hhalf, div_le_one hhalf] at habs
      obtain ⟨hlow, hhigh⟩ := abs_le.mp habs
      exact ⟨by linarith, by linarith⟩
    obtain ⟨hx, hx'⟩ := hside (v := p.1) (c := (centre b).1) (half_pos hsize.1)
      (le_trans (le_add_of_nonneg_right (sq_nonneg _)) hsum)
    obtain ⟨hy, hy'⟩ := hside (v := p.2) (c := (centre b).2) (half_pos hsize.2)
      (le_trans (le_add_of_nonneg_left (sq_nonneg _)) hsum)
    rw [centre] at hx hx' hy hy'
    dsimp only at hx hx' hy hy'
    rw [containsPoint, decide_eq_true_eq]
    exact ⟨by linarith, by linarith, by linarith, by linarith⟩

/-- A frame that is hit: on its edge it is in reach, and its title is beside it at most to the
right, and above. -/
theorem intersects_frame (h : n.kind = .frame) (hhit : nodeHit D nodes n p tolerance = true) :
    intersects (nodeBox n) (probe p tolerance) = true ↔
      n.y < p.2 + (tolerance + 3) ∧ p.1 - (tolerance + 3) < n.x + n.w ∧
        p.2 - (tolerance + 3) < n.y + n.h := by
  rw [nodeHit, h] at hhit
  rw [intersects_probe]
  refine ⟨fun hover => ⟨hover.2.2.1, hover.2.1, hover.2.2.2⟩, fun hreach => ?_⟩
  refine ⟨?_, hreach.2.1, hreach.1, hreach.2.2⟩
  obtain hedge | htitle := of_decide_eq_true hhit
  · obtain ⟨hin, hnot⟩ := hedge
    -- With no tolerance nothing inside is the edge.
    have hpos : 0 < tolerance := by
      by_contra hneg
      rw [not_lt] at hneg
      rw [containsPoint, decide_eq_true_eq] at hin
      rw [Bool.not_eq_true', Bool.eq_false_iff] at hnot
      refine hnot (containsPoint_expand.mpr ⟨?_, ?_, ?_, ?_⟩)
      · linarith [hin.1]
      · linarith [hin.2.1]
      · linarith [hin.2.2.1]
      · linarith [hin.2.2.2]
    rw [containsPoint, decide_eq_true_eq] at hin
    linarith [hin.1]
  · obtain ⟨hleft, -, -, habove⟩ := htitle
    have hy : p.2 < n.y := habove
    have hx : n.x ≤ p.1 := hleft
    change n.x < p.1 + (tolerance + 3)
    linarith [hreach.1]

/-- **What is hit is in reach** exactly where it is by its kind. -/
theorem intersects_hit (h : nodeHit D nodes n p tolerance = true) :
    intersects (boundsOf D nodes n) (probe p tolerance) = true ↔ Reached D nodes n p tolerance := by
  have hfilled : boundsOf D nodes n = nodeBox n →
      containsPoint (expand (nodeBox n) tolerance) p = true →
      intersects (boundsOf D nodes n) (probe p tolerance) = true := by
    intro hbox hin
    rw [hbox]
    exact intersects_filled hin
  rw [Reached]
  cases hk : n.kind with
  | sticky =>
    rw [nodeHit, hk] at h
    exact iff_of_true (hfilled (by rw [boundsOf, hk]) h) trivial
  | rect =>
    rw [nodeHit, hk] at h
    exact iff_of_true (hfilled (by rw [boundsOf, hk]) h) trivial
  | text =>
    rw [nodeHit, hk] at h
    exact iff_of_true (hfilled (by rw [boundsOf, hk]) h) trivial
  | ellipse =>
    rw [nodeHit, hk] at h
    exact iff_of_true (hfilled (by rw [boundsOf, hk]) (containsPoint_of_ellipse h)) trivial
  | arrow =>
    rw [nodeHit, hk] at h
    exact intersects_line h (inside_arrow hk)
  | ink =>
    rw [nodeHit, hk] at h
    refine intersects_line h ?_
    rw [boundsOf, hk]
    cases hpoints : n.points with
    | nil => exact fun q hq => absurd hq List.not_mem_nil
    | cons q qs => exact inside_around q qs
  | frame =>
    have hbox : boundsOf D nodes n = nodeBox n := by rw [boundsOf, hk]
    rw [hbox]
    exact intersects_frame hk h

end Reach

/-! ### Picking through the index -/

section Picking

variable {D : Layouts} {s : Retained} {p : Point} {tolerance : ℚ} {b : Box}

/-- What is looked for among some of a list is found, unless the first there is is not among them. -/
theorem find?_filter_eq {α : Type} {l : List α} {q h : α → Bool} :
    (l.filter q).find? h = l.find? h ↔ ∀ n, l.find? h = some n → q n = true := by
  constructor
  · intro heq n hn
    rw [hn] at heq
    exact (List.mem_filter.mp (List.mem_of_find?_eq_some heq)).2
  · intro hall
    cases hn : l.find? h with
    | none =>
      rw [List.find?_eq_none] at hn ⊢
      exact fun x hx => hn x (List.mem_filter.mp hx).1
    | some n =>
      have hq := hall n hn
      obtain ⟨hhit, pre, post, rfl, hpre⟩ := List.find?_eq_some_iff_append.mp hn
      rw [List.filter_append, List.filter_cons_of_pos hq]
      refine List.find?_eq_some_iff_append.mpr ⟨hhit, _, _, rfl, fun x hx => ?_⟩
      exact hpre x (List.mem_filter.mp hx).1

/-- A query answers the nodes whose boxes overlap, in drawing order. -/
theorem Retained.Sound.query_eq (h : s.Sound D fun _ => False) (b : Box) :
    s.query b = (Scene.all s.nodes).filter fun n => intersects (boundsOf D s.nodes n) b := by
  have hexact := h.index.exact
  have hget : ∀ n ∈ s.nodes, Scene.get s.nodes n.id = some n := fun n hn =>
    lookup_eq_some h.nodup hn
  have hmem : ∀ n, n ∈ (s.index.search b).filterMap (Scene.get s.nodes) ↔
      n ∈ s.nodes ∧ intersects (boundsOf D s.nodes n) b = true := by
    intro n
    rw [List.mem_filterMap]
    constructor
    · rintro ⟨i, hi, hn⟩
      obtain ⟨hmem, rfl⟩ := mem_of_lookup hn
      obtain ⟨box, hbox, hover⟩ := (hexact.found b n.id).mp hi
      rw [h.boxes n.id not_false, hn] at hbox
      cases hbox
      exact ⟨hmem, hover⟩
    · rintro ⟨hmem, hover⟩
      refine ⟨n.id, (hexact.found b n.id).mpr ⟨_, ?_, hover⟩, hget n hmem⟩
      rw [h.boxes n.id not_false, hget n hmem]
      rfl
  have hnodup : ((s.index.search b).filterMap (Scene.get s.nodes)).Nodup := by
    refine (hexact.once b).filterMap fun i j n hi hj => ?_
    rw [← (mem_of_lookup hi).2, ← (mem_of_lookup hj).2]
  have hnodes : s.nodes.Nodup := h.nodup.of_map _
  have hperm : ((s.index.search b).filterMap (Scene.get s.nodes)).Perm
      (s.nodes.filter fun n => intersects (boundsOf D s.nodes n) b) := by
    refine (List.perm_ext_iff_of_nodup hnodup (hnodes.filter _)).mpr fun n => ?_
    rw [hmem, List.mem_filter]
  -- Two sorted lists of the same nodes are one.
  refine List.Perm.eq_of_pairwise (fun a c ha hc hac hca => ?_) (pairwise_all _)
    ((pairwise_all _).filter _) ?_
  · have ha' : a ∈ s.nodes := ((hmem a).mp (List.mem_mergeSort.mp ha)).1
    have hc' : c ∈ s.nodes := List.mem_mergeSort.mp (List.mem_filter.mp hc).1
    have hid : a.id = c.id := by
      obtain hlt | ⟨heq, hle⟩ := hac
      · obtain hlt' | ⟨heq, -⟩ := hca
        · exact absurd hlt hlt'.asymm
        · exact absurd heq hlt.ne'
      · obtain hlt' | ⟨-, hle'⟩ := hca
        · exact absurd heq hlt'.ne'
        · exact le_antisymm hle hle'
    have hsame := hget a ha'
    rw [hid, hget c hc'] at hsame
    exact (Option.some_inj.mp hsame).symm
  · exact (List.mergeSort_perm _ _).trans (hperm.trans ((List.mergeSort_perm _ _).symm.filter _))

theorem Retained.Sound.hitTest_eq (h : s.Sound D fun _ => False) :
    s.hitTest D p tolerance = s.picked D p tolerance ↔
      ∀ n, s.picked D p tolerance = some n → Reached D s.nodes n p tolerance := by
  rw [Retained.hitTest, Retained.picked, h.query_eq, ← List.filter_reverse, find?_filter_eq]
  refine forall_congr' fun n => forall_congr' fun hn => ?_
  have hhit := List.find?_some hn
  exact intersects_hit hhit

/-- **Picking through the index is picking**, after every run whose operations keep the index,
exactly where the topmost node that is hit is in reach. -/
theorem hitTest_picked {ops : List SceneOp} (h : ∀ before op after, ops = before ++ op :: after →
    op.Meets D (sceneAfter D before)) (p : Point) (tolerance : ℚ) :
    (sceneAfter D ops).hitTest D p tolerance = (sceneAfter D ops).picked D p tolerance ↔
      ∀ n, (sceneAfter D ops).picked D p tolerance = some n →
        Reached D (sceneAfter D ops).nodes n p tolerance :=
  (sound_sceneAfter h).hitTest_eq

end Picking

/-- A frame at the origin, with its title above it. -/
@[grind =]
def titled : Node where
  id := "f"
  kind := .frame
  x := 0
  y := 0
  w := 600
  h := 420
  fill := .grey
  text := ""
  frame := none
  z := 0
  locked := false
  size := none
  fromId := none
  toId := none
  startAt := none
  endAt := none
  points := []
  name := some "Frame"

/-- The lower part of a title is in reach. -/
theorem hitTest_picked_title :
    (sceneAfter plainLayouts [.set titled]).hitTest plainLayouts (10, -2) 1 =
      (sceneAfter plainLayouts [.set titled]).picked plainLayouts (10, -2) 1 := by
  refine (hitTest_picked (fun before op after hsplit => ?_) (10, -2) 1).mpr fun n hn => ?_
  · cases before with
    | nil =>
      cases hsplit
      exact ⟨fun b hb => (nomatch hb), fun hk => (nomatch hk)⟩
    | cons op' before =>
      have hlength := congrArg List.length hsplit
      simp at hlength
  · have htitle : (sceneAfter plainLayouts [.set titled]).picked plainLayouts (10, -2) 1 =
        some titled := by decide +kernel
    rw [htitle] at hn
    cases hn
    exact ⟨by decide +kernel, by decide +kernel, by decide +kernel⟩

/-- The upper part of a title is a hit that the index does not answer. -/
theorem title_missed : ¬((sceneAfter plainLayouts [.set titled]).hitTest plainLayouts (10, -20) 1 =
    (sceneAfter plainLayouts [.set titled]).picked plainLayouts (10, -20) 1) := by
  decide +kernel

end Canvas

end LocalSpace
