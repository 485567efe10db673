import Mathlib.Algebra.BigOperators.Group.List.Basic
import Mathlib.Algebra.Order.Ring.Int
import Mathlib.Data.List.GetD

/-!
# Lists assembled by index

Pieces come in any order, each for the place its index names. The list grows where a place is not yet
there, and every place holds what its own pieces make of it, in the order they came in.
-/

namespace Library

variable {α β : Type}

/-- The place at an index, changed; the list grows up to it where it must. -/
def growAt (d : α) (l : List α) (i : ℕ) (f : α → α) : List α :=
  (l ++ List.replicate (i + 1 - l.length) d).modify i f

/-- Pieces, each at its index. -/
def growAll (d : α) (f : α → β → α) (l : List α) (pieces : List (ℕ × β)) : List α :=
  pieces.foldl (fun l p => growAt d l p.1 fun x => f x p.2) l

/-- The pieces of one place. -/
def piecesOf (i : ℕ) (pieces : List (ℕ × β)) : List β :=
  pieces.filterMap fun p => if p.1 = i then some p.2 else none

variable {d : α} {f : α → β → α} {l : List α} {i j : ℕ} {p : ℕ × β} {ps qs : List (ℕ × β)}

theorem length_growAt (d : α) (l : List α) (i : ℕ) (g : α → α) :
    (growAt d l i g).length = max l.length (i + 1) := by
  simp only [growAt, List.length_modify, List.length_append, List.length_replicate]
  omega

/-- Only the place that an index names is changed. -/
theorem getD_growAt (d : α) (l : List α) (i j : ℕ) (g : α → α) :
    (growAt d l i g).getD j d = if j = i then g (l.getD i d) else l.getD j d := by
  have hgrown : ∀ k, (l ++ List.replicate (i + 1 - l.length) d).getD k d = l.getD k d := by
    intro k
    rcases Nat.lt_or_ge k l.length with hk | hk
    · rw [List.getD_append _ _ _ _ hk]
    · rw [List.getD_append_right _ _ _ _ hk, List.getD_eq_default _ _ hk]
      simp [List.getD_eq_getElem?_getD, List.getElem?_replicate]
      split <;> rfl
  by_cases hj : j = i
  · subst hj
    have hlt : j < (l ++ List.replicate (j + 1 - l.length) d).length := by
      simp only [List.length_append, List.length_replicate]
      omega
    rw [if_pos rfl, ← hgrown, growAt, List.getD_eq_getElem?_getD, List.getD_eq_getElem?_getD,
      List.getElem?_modify_eq, List.getElem?_eq_getElem hlt]
    rfl
  · rw [if_neg hj, ← hgrown, growAt, List.getD_eq_getElem?_getD, List.getD_eq_getElem?_getD,
      List.getElem?_modify_ne _ _ (Ne.symm hj)]

theorem growAll_append (d : α) (f : α → β → α) (l : List α) (ps qs : List (ℕ × β)) :
    growAll d f l (ps ++ qs) = growAll d f (growAll d f l ps) qs :=
  List.foldl_append

/-- **What a place holds** is made of its own pieces. -/
theorem getD_growAll (d : α) (f : α → β → α) (l : List α) (ps : List (ℕ × β)) (i : ℕ) :
    (growAll d f l ps).getD i d = (piecesOf i ps).foldl f (l.getD i d) := by
  induction ps generalizing l with
  | nil => rfl
  | cons p ps ih =>
    change (growAll d f (growAt d l p.1 _) ps).getD i d =
      (((p :: ps).filterMap fun q => if q.1 = i then some q.2 else none).foldl f _)
    rw [ih, getD_growAt, List.filterMap_cons]
    by_cases h : p.1 = i
    · rw [if_pos h.symm, if_pos h, h]
      rfl
    · rw [if_neg (Ne.symm h), if_neg h]
      rfl

/-- The list reaches as far as the pieces do. -/
theorem lt_length_growAll : i < (growAll d f l ps).length ↔
    i < l.length ∨ ∃ p ∈ ps, i ≤ p.1 := by
  induction ps generalizing l with
  | nil => simp [growAll]
  | cons p ps ih =>
    change i < (growAll d f (growAt d l p.1 _) ps).length ↔ _
    have hmax : i < max l.length (p.1 + 1) ↔ i < l.length ∨ i ≤ p.1 := by
      omega
    rw [ih, length_growAt, hmax]
    simp only [List.mem_cons, exists_eq_or_imp, or_assoc]

end Library
