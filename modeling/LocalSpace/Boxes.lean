import Mathlib.Algebra.BigOperators.Group.List.Basic
import Mathlib.Algebra.Order.Ring.Int
import Mathlib.Algebra.Order.Ring.Rat
import Mathlib.Order.Bounds.Basic
import Mathlib.Order.Lattice
import Mathlib.Tactic.Linarith

/-!
# Boxes

`geometry.ts`: boxes by their corner, width and height. One box lies in another (`containsBox`), and
the union of two is the least that holds both: boxes are an upper semilattice, and a union of many
is a least upper bound.
-/

namespace LocalSpace

namespace Canvas

/-- An axis-aligned box: `x, y` is the top-left corner. -/
@[ext]
structure Box where
  x : ℚ
  y : ℚ
  w : ℚ
  h : ℚ
  deriving DecidableEq

/-- Whether two boxes overlap: an edge that is shared is no overlap. -/
def intersects (a b : Box) : Bool :=
  a.x < b.x + b.w ∧ a.x + a.w > b.x ∧ a.y < b.y + b.h ∧ a.y + a.h > b.y

def containsPoint (b : Box) (p : ℚ × ℚ) : Bool :=
  b.x ≤ p.1 ∧ p.1 ≤ b.x + b.w ∧ b.y ≤ p.2 ∧ p.2 ≤ b.y + b.h

/-- Whether `inner` lies entirely within `outer`. -/
def containsBox (outer inner : Box) : Bool :=
  outer.x ≤ inner.x ∧ outer.y ≤ inner.y ∧ inner.x + inner.w ≤ outer.x + outer.w ∧
    inner.y + inner.h ≤ outer.y + outer.h

def union (a b : Box) : Box :=
  let x := min a.x b.x
  let y := min a.y b.y
  let r := max (a.x + a.w) (b.x + b.w)
  let d := max (a.y + a.h) (b.y + b.h)
  ⟨x, y, r - x, d - y⟩

def expand (b : Box) (by' : ℚ) : Box :=
  ⟨b.x - by', b.y - by', b.w + by' * 2, b.h + by' * 2⟩

def area (b : Box) : ℚ :=
  b.w * b.h

/-- How much the union of two boxes grows over the first. -/
def enlargement (a b : Box) : ℚ :=
  area (union a b) - area a

/-! ### The order of boxes -/

instance : LE Box :=
  ⟨fun a b => containsBox b a = true⟩

theorem le_box {a b : Box} : a ≤ b ↔ b.x ≤ a.x ∧ b.y ≤ a.y ∧ a.x + a.w ≤ b.x + b.w ∧
    a.y + a.h ≤ b.y + b.h :=
  decide_eq_true_iff

instance : PartialOrder Box where
  le_refl a := le_box.mpr ⟨le_refl _, le_refl _, le_refl _, le_refl _⟩
  le_trans a b c hab hbc := by
    obtain ⟨hx, hy, hr, hd⟩ := le_box.mp hab
    obtain ⟨hx', hy', hr', hd'⟩ := le_box.mp hbc
    exact le_box.mpr ⟨hx'.trans hx, hy'.trans hy, hr.trans hr', hd.trans hd'⟩
  le_antisymm a b hab hba := by
    obtain ⟨hx, hy, hr, hd⟩ := le_box.mp hab
    obtain ⟨hx', hy', hr', hd'⟩ := le_box.mp hba
    have hxx : a.x = b.x := le_antisymm hx' hx
    have hyy : a.y = b.y := le_antisymm hy' hy
    rw [hxx] at hr hr'
    rw [hyy] at hd hd'
    exact Box.ext hxx hyy (by linarith) (by linarith)

/-- The union is the least box that holds both. -/
instance : SemilatticeSup Box where
  sup := union
  le_sup_left a b := le_box.mpr ⟨min_le_left _ _, min_le_left _ _, by
    rw [union]
    dsimp only
    rw [add_sub_cancel]
    exact le_max_left _ _, by
    rw [union]
    dsimp only
    rw [add_sub_cancel]
    exact le_max_left _ _⟩
  le_sup_right a b := le_box.mpr ⟨min_le_right _ _, min_le_right _ _, by
    rw [union]
    dsimp only
    rw [add_sub_cancel]
    exact le_max_right _ _, by
    rw [union]
    dsimp only
    rw [add_sub_cancel]
    exact le_max_right _ _⟩
  sup_le a b c hac hbc := by
    obtain ⟨hx, hy, hr, hd⟩ := le_box.mp hac
    obtain ⟨hx', hy', hr', hd'⟩ := le_box.mp hbc
    refine le_box.mpr ⟨le_min hx hx', le_min hy hy', ?_, ?_⟩
    · rw [union]
      dsimp only
      rw [add_sub_cancel]
      exact max_le hr hr'
    · rw [union]
      dsimp only
      rw [add_sub_cancel]
      exact max_le hd hd'

theorem union_eq_sup (a b : Box) : union a b = a ⊔ b :=
  rfl

/-! ### Overlaps -/

theorem intersects_iff {a b : Box} : intersects a b = true ↔
    a.x < b.x + b.w ∧ a.x + a.w > b.x ∧ a.y < b.y + b.h ∧ a.y + a.h > b.y :=
  decide_eq_true_iff

/-- What overlaps a box overlaps what holds the box. -/
theorem intersects_mono {a b c : Box} (h : a ≤ b) (hc : intersects a c = true) :
    intersects b c = true := by
  obtain ⟨hx, hy, hr, hd⟩ := le_box.mp h
  obtain ⟨hleft, hright, htop, hbottom⟩ := intersects_iff.mp hc
  exact intersects_iff.mpr ⟨hx.trans_lt hleft, hright.trans_le hr, hy.trans_lt htop,
    hbottom.trans_le hd⟩

/-- A box with a width and a height overlaps itself. -/
theorem intersects_self {a : Box} (hw : 0 < a.w) (hh : 0 < a.h) : intersects a a = true := by
  refine intersects_iff.mpr ⟨?_, ?_, ?_, ?_⟩
  · linarith
  · linarith
  · linarith
  · linarith

/-- A box with a width and a height overlaps what holds it. -/
theorem intersects_of_le {a b : Box} (h : a ≤ b) (hw : 0 < a.w) (hh : 0 < a.h) :
    intersects b a = true :=
  intersects_mono h (intersects_self hw hh)

end Canvas

end LocalSpace
