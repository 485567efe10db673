import Mathlib.Algebra.BigOperators.Group.List.Basic
import Mathlib.Algebra.Order.BigOperators.Group.List
import Mathlib.Algebra.Order.Ring.Int
import Mathlib.Data.List.Sort

/-!
# Dealing out

An amount is dealt out to needs in ascending order: each gets what it needs, or an equal part of what
is left, rounded down. What is dealt is all there is or all that is needed, and it is level: there is
a level at which every need is met or cut, but for one.
-/

namespace Library

variable {left m q : ℕ} {needs : List ℕ}

/-- Each need is met, or gets an equal part of what is left. -/
@[grind =]
def dealt : ℕ → List ℕ → List ℕ
  | _, [] => []
  | left, n :: rest =>
    let part := min n (left / (rest.length + 1))
    part :: dealt (left - part) rest

theorem sum_dealt_le (left : ℕ) (needs : List ℕ) : (dealt left needs).sum ≤ needs.sum := by
  induction needs generalizing left with
  | nil => simp [dealt]
  | cons n rest ih =>
    simp only [dealt, List.sum_cons]
    exact Nat.add_le_add (min_le_left _ _) (ih _)

/-- Needs that are all above a level are cut at it, or one above, and what is left is all dealt. -/
theorem dealt_cut (habove : ∀ n ∈ needs, q < n) (hlow : q * needs.length ≤ left)
    (hhigh : left ≤ (q + 1) * needs.length) :
    (∀ s ∈ dealt left needs, s = q ∨ s = q + 1) ∧ (dealt left needs).sum = left := by
  induction needs generalizing left with
  | nil =>
    simp only [List.length_nil, Nat.mul_zero] at hhigh
    simp [dealt, Nat.le_zero.mp hhigh]
  | cons n rest ih =>
    have hn := habove n List.mem_cons_self
    rw [List.length_cons, Nat.mul_succ] at hlow hhigh
    -- an equal part is the level, or one above where all the rest get that
    have hpart : left / (rest.length + 1) = q ∨
        left / (rest.length + 1) = q + 1 ∧ left = (q + 1) * (rest.length + 1) := by
      have hq : q ≤ left / (rest.length + 1) := by
        rw [Nat.le_div_iff_mul_le (Nat.succ_pos _), Nat.mul_succ]
        exact hlow
      rcases Nat.lt_or_ge left ((q + 1) * (rest.length + 1)) with hless | hmore
      · have hlt : left / (rest.length + 1) < q + 1 :=
          (Nat.div_lt_iff_lt_mul (Nat.succ_pos _)).mpr hless
        omega
      · have heq : left = (q + 1) * (rest.length + 1) := by
          rw [Nat.mul_succ] at hmore ⊢
          omega
        right
        exact ⟨by rw [heq, Nat.mul_div_cancel _ (Nat.succ_pos _)], heq⟩
    have hmin : min n (left / (rest.length + 1)) = left / (rest.length + 1) := by
      rcases hpart with h | ⟨h, -⟩ <;> omega
    have hrest : q * rest.length ≤ left - left / (rest.length + 1) ∧
        left - left / (rest.length + 1) ≤ (q + 1) * rest.length := by
      rcases hpart with h | ⟨h, heq⟩
      · have hlt : left < (q + 1) * (rest.length + 1) := by
          rw [← Nat.div_lt_iff_lt_mul (Nat.succ_pos _), h]
          omega
        rw [Nat.mul_succ] at hlt
        omega
      · rw [Nat.mul_succ] at heq
        have hle : q * rest.length ≤ (q + 1) * rest.length := Nat.mul_le_mul_right _ (Nat.le_succ q)
        omega
    obtain ⟨hshares, hsum⟩ := ih (fun n hn => habove n (List.mem_cons_of_mem _ hn)) hrest.1 hrest.2
    simp only [dealt, hmin, List.mem_cons, List.sum_cons]
    constructor
    · rintro s (rfl | hs)
      · rcases hpart with h | ⟨h, -⟩ <;> omega
      · exact hshares s hs
    · have hle := Nat.div_le_self left (rest.length + 1)
      omega

/-- **What is dealt is level**: every need is met below the level, and cut at it or one above. -/
theorem dealt_level (hsorted : needs.Pairwise (· ≤ ·)) (hm : m * needs.length ≤ left) :
    ∃ q, m ≤ q ∧ ∀ p ∈ needs.zip (dealt left needs), min p.1 q ≤ p.2 ∧ p.2 ≤ min p.1 (q + 1) := by
  induction needs generalizing left m with
  | nil => exact ⟨m, le_rfl, by simp⟩
  | cons n rest ih =>
    obtain ⟨hfirst, hsorted⟩ := List.pairwise_cons.mp hsorted
    rw [List.length_cons] at hm
    rcases Nat.lt_or_ge (left / (rest.length + 1)) n with hcut | hmet
    · -- from here on all are cut
      refine ⟨left / (rest.length + 1), (Nat.le_div_iff_mul_le (Nat.succ_pos _)).mpr hm, ?_⟩
      have habove : ∀ n' ∈ n :: rest, left / (rest.length + 1) < n' := by
        intro n' hn'
        rcases List.mem_cons.mp hn' with rfl | hn'
        · exact hcut
        · exact hcut.trans_le (hfirst n' hn')
      obtain ⟨hshares, -⟩ := @dealt_cut left _ _ habove
        (by rw [List.length_cons]; exact Nat.div_mul_le_self _ _)
        (by
          rw [List.length_cons, Nat.mul_comm]
          exact (Nat.lt_mul_div_succ left (Nat.succ_pos _)).le)
      intro p hp
      have hn := habove p.1 (List.of_mem_zip hp).1
      have hs := hshares p.2 (List.of_mem_zip hp).2
      omega
    · have hmin : min n (left / (rest.length + 1)) = n := by omega
      have hall : n * (rest.length + 1) ≤ left := (Nat.le_div_iff_mul_le (Nat.succ_pos _)).mp hmet
      obtain ⟨q, hq, hlevel⟩ := @ih (left - n) (max m n) hsorted (by
        rcases Nat.lt_or_ge n m with h | h
        · rw [max_eq_left h.le]
          rw [Nat.mul_succ] at hm
          omega
        · rw [max_eq_right h]
          rw [Nat.mul_succ] at hall
          omega)
      refine ⟨q, (le_max_left _ _).trans hq, ?_⟩
      simp only [dealt, hmin, List.zip_cons_cons, List.mem_cons]
      rintro p (rfl | hp)
      · have hn := (le_max_right m n).trans hq
        dsimp only
        omega
      · exact hlevel p hp

/-- **What is dealt** is all there is, or all that is needed. -/
theorem sum_dealt (hsorted : needs.Pairwise (· ≤ ·)) :
    (dealt left needs).sum = min left needs.sum := by
  induction needs generalizing left with
  | nil => simp [dealt]
  | cons n rest ih =>
    obtain ⟨hfirst, hrest⟩ := List.pairwise_cons.mp hsorted
    rcases Nat.lt_or_ge (left / (rest.length + 1)) n with hcut | hmet
    · have habove : ∀ n' ∈ n :: rest, left / (rest.length + 1) < n' := by
        intro n' hn'
        rcases List.mem_cons.mp hn' with rfl | hn'
        · exact hcut
        · exact hcut.trans_le (hfirst n' hn')
      obtain ⟨-, hsum⟩ := @dealt_cut left _ _ habove
        (by rw [List.length_cons]; exact Nat.div_mul_le_self _ _)
        (by
          rw [List.length_cons, Nat.mul_comm]
          exact (Nat.lt_mul_div_succ left (Nat.succ_pos _)).le)
      have hle := sum_dealt_le left (n :: rest)
      omega
    · have hmin : min n (left / (rest.length + 1)) = n := by omega
      have hn := hmet.trans (Nat.div_le_self _ _)
      simp only [dealt, hmin, List.sum_cons, ih hrest]
      omega

end Library
