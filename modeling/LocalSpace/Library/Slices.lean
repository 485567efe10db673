import Mathlib.Algebra.BigOperators.Group.List.Basic
import Mathlib.Algebra.Order.Group.Nat
import Mathlib.Algebra.Order.Ring.Int

/-!
# Texts cut at a number of bytes

A position in a text counts bytes, and a character may be of several. A text can be cut at a position
that lies inside it, between two characters.
-/

namespace Library

/-- The bytes of a text. -/
def byteLength (text : List Char) : ℕ :=
  (text.map Char.utf8Size).sum

/-- A text cut at a position; `none` where it cannot be. -/
def sliceAt (n : ℕ) : List Char → Option (List Char × List Char)
  | [] => if n = 0 then some ([], []) else none
  | c :: l =>
    if n = 0 then some ([], c :: l)
    else if c.utf8Size ≤ n then (sliceAt (n - c.utf8Size) l).map fun p => (c :: p.1, p.2)
    else none

/-- A position inside a text, between two characters. -/
def Boundary (text : List Char) (n : ℕ) : Prop :=
  ∃ before rest, text = before ++ rest ∧ n = byteLength before

variable {text before rest l : List Char} {n : ℕ}

@[simp]
theorem byteLength_nil : byteLength [] = 0 := rfl

@[simp]
theorem byteLength_cons (c : Char) (l : List Char) :
    byteLength (c :: l) = c.utf8Size + byteLength l := by
  simp [byteLength]

@[simp]
theorem byteLength_append (l l' : List Char) :
    byteLength (l ++ l') = byteLength l + byteLength l' := by
  simp [byteLength]

theorem byteLength_pos (h : l ≠ []) : 0 < byteLength l := by
  cases l with
  | nil => exact absurd rfl h
  | cons c l =>
    have hc := c.utf8Size_pos
    rw [byteLength_cons]
    omega

@[simp]
theorem sliceAt_append (before rest : List Char) :
    sliceAt (byteLength before) (before ++ rest) = some (before, rest) := by
  induction before with
  | nil => cases rest <;> rfl
  | cons c before ih =>
    have hc := c.utf8Size_pos
    rw [List.cons_append, sliceAt, byteLength_cons, if_neg (by omega), if_pos (by omega),
      Nat.add_sub_cancel_left, ih]
    rfl

theorem sliceAt_eq_some (h : sliceAt n text = some (before, rest)) :
    text = before ++ rest ∧ n = byteLength before := by
  induction text generalizing n before with
  | nil =>
    rw [sliceAt] at h
    split at h
    · cases h
      exact ⟨rfl, ‹n = 0›⟩
    · cases h
  | cons c l ih =>
    rw [sliceAt] at h
    split at h
    · cases h
      exact ⟨rfl, ‹n = 0›⟩
    · split at h
      · obtain ⟨⟨before', rest'⟩, hcut, heq⟩ := Option.map_eq_some_iff.mp h
        cases heq
        obtain ⟨rfl, hn⟩ := ih hcut
        refine ⟨rfl, ?_⟩
        dsimp only at hn ⊢
        rw [byteLength_cons]
        omega
      · cases h

theorem Boundary.le (h : Boundary text n) : n ≤ byteLength text := by
  obtain ⟨before, rest, rfl, rfl⟩ := h
  rw [byteLength_append]
  omega

theorem boundary_append (before rest : List Char) : Boundary (before ++ rest) (byteLength before) :=
  ⟨before, rest, rfl, rfl⟩

theorem boundary_zero (text : List Char) : Boundary text 0 :=
  ⟨[], text, rfl, rfl⟩

end Library
