import Mathlib.Algebra.BigOperators.Group.List.Basic
import Mathlib.Algebra.Order.Ring.Int
import Mathlib.Data.Nat.Bitwise

/-!
# Leading bits

Two numbers of `w` bits have the same first `b` bits. A machine compares them under a mask, made by a
shift that is out of range where no bit is asked for; arithmetic compares quotients.
-/

namespace Library

/-- The first `b` bits of `w` are the same. -/
def SameLeading (w b x y : ℕ) : Prop :=
  ∀ i < b, x.testBit (w - 1 - i) = y.testBit (w - 1 - i)

/-- A shift whose amount must be less than the width. -/
def checkedShl {w : ℕ} (x : BitVec w) (n : ℕ) : Option (BitVec w) :=
  if n < w then some (x <<< n) else none

/-- A mask of `w` bits, all but the last `n`. -/
def maskAbove (w n : ℕ) : BitVec w :=
  (checkedShl (BitVec.allOnes w) n).getD 0

variable {w b n i x y : ℕ}

/-- **The mask**, at both ends too: the bits from `n` on. -/
theorem getLsbD_maskAbove (w n i : ℕ) :
    (maskAbove w n).getLsbD i = (decide (n ≤ i) && decide (i < w)) := by
  rw [maskAbove, checkedShl]
  split
  · rw [Option.getD_some, BitVec.getLsbD_shiftLeft, BitVec.getLsbD_allOnes]
    rcases Nat.lt_or_ge i n with h | h
    · simp [h]
    · by_cases hw : i < w
      · have hsub : i - n < w := by
          omega
        simp [h, hw, hsub, Nat.not_lt.mpr h]
      · simp [hw]
  · have hnot : ¬(n ≤ i ∧ i < w) := by
      omega
    rw [Option.getD_none, ← Bool.decide_and, decide_eq_false hnot]
    exact BitVec.getLsbD_zero

/-- The first bits are those from `w - b` on. -/
theorem sameLeading_iff (hb : b ≤ w) :
    SameLeading w b x y ↔ ∀ i, w - b ≤ i → i < w → x.testBit i = y.testBit i := by
  constructor
  · intro h i hlow hhigh
    have hbit := h (w - 1 - i) (by omega)
    rwa [show w - 1 - (w - 1 - i) = i by omega] at hbit
  · intro h i hi
    exact h _ (by omega) (by omega)

/-- **Under the mask** two numbers are the same when their first bits are. -/
theorem and_maskAbove_eq_iff (hb : b ≤ w) :
    BitVec.ofNat w x &&& maskAbove w (w - b) = BitVec.ofNat w y &&& maskAbove w (w - b) ↔
      SameLeading w b x y := by
  rw [sameLeading_iff hb]
  constructor
  · intro h i hlow hhigh
    have hbit : (BitVec.ofNat w x &&& maskAbove w (w - b)).getLsbD i =
        (BitVec.ofNat w y &&& maskAbove w (w - b)).getLsbD i := by
      rw [h]
    simpa only [BitVec.getLsbD_and, getLsbD_maskAbove, BitVec.getLsbD_ofNat, hlow, hhigh,
      decide_true, Bool.true_and, Bool.and_true] using hbit
  · intro h
    refine BitVec.eq_of_getLsbD_eq fun i hi => ?_
    simp only [BitVec.getLsbD_and, getLsbD_maskAbove, BitVec.getLsbD_ofNat, hi, decide_true,
      Bool.true_and, Bool.and_true]
    by_cases hlow : w - b ≤ i
    · rw [h i hlow hi]
    · simp [hlow]

end Library
