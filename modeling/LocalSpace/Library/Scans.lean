import Mathlib.Algebra.BigOperators.Group.List.Basic
import Mathlib.Algebra.Order.Group.Nat
import Mathlib.Algebra.Order.Ring.Int
import Mathlib.Logic.Relation

/-!
# Scans

A loop takes turns from a start, each of which comes to a next state, stops the loop with a result, or
fails. A scan's position moves forward from turn to turn, inside bounds, and so the loop ends.
-/

namespace Library

/-- What a turn of a loop comes to. -/
inductive Round (σ α : Type) where
  | next (s : σ)
  | stop (a : α)
  | fail

variable {σ α : Type} {step : σ → Round σ α} {pos : σ → ℕ} {inside : ℕ → Prop} {s₀ s t : σ} {a : α}
  {n : ℕ}

/-- The loop: `none` where it fails, or where the fuel does not last. -/
def scan (step : σ → Round σ α) : ℕ → σ → Option α
  | 0, _ => none
  | fuel + 1, s =>
    match step s with
    | .next t => scan step fuel t
    | .stop a => some a
    | .fail => none

/-- One turn leads to the next. -/
def Follows (step : σ → Round σ α) (s t : σ) : Prop :=
  step s = .next t

/-- The states the loop comes to. -/
def Reached (step : σ → Round σ α) : σ → σ → Prop :=
  Relation.ReflTransGen (Follows step)

/-- **A scan**: its position is always inside, moves forward from turn to turn, and it ends. -/
structure Scans (step : σ → Round σ α) (pos : σ → ℕ) (inside : ℕ → Prop) (s₀ : σ) : Prop where
  inside : ∀ s, Reached step s₀ s → inside (pos s)
  forward : ∀ s t, Reached step s₀ s → step s = .next t → pos s < pos t
  ends : ∃ n a, ∀ fuel ≥ n, scan step fuel s₀ = some a

/-- A turn of a scan: it does not fail, and moves forward, inside. -/
@[grind =]
def Advances (step : σ → Round σ α) (pos : σ → ℕ) (inside : ℕ → Prop) (s : σ) : Prop :=
  match step s with
  | .next t => pos s < pos t ∧ inside (pos t)
  | .stop _ => True
  | .fail => False

theorem Advances.next (h : Advances step pos inside s) (hstep : step s = .next t) :
    pos s < pos t ∧ inside (pos t) := by
  rw [Advances, hstep] at h
  exact h

/-- **The induction over turns**: what every turn that is come to does, the loop does. -/
theorem scans_of_advances {bound : ℕ} (hbound : ∀ n, inside n → n ≤ bound)
    (hstart : inside (pos s₀))
    (h : ∀ s, Reached step s₀ s → inside (pos s) → Advances step pos inside s) :
    Scans step pos inside s₀ := by
  have hinside : ∀ s, Reached step s₀ s → inside (pos s) := by
    intro s hs
    induction hs with
    | refl => exact hstart
    | tail hs hstep ih => exact ((h _ hs ih).next hstep).2
  refine ⟨hinside, fun s t hs hstep => ((h s hs (hinside s hs)).next hstep).1, ?_⟩
  -- what is left of the text grows shorter
  suffices hleft : ∀ k s, Reached step s₀ s → bound - pos s < k →
      ∃ a, ∀ fuel ≥ k, scan step fuel s = some a by
    obtain ⟨a, ha⟩ := hleft (bound - pos s₀ + 1) s₀ .refl (Nat.lt_succ_self _)
    exact ⟨_, a, ha⟩
  intro k
  induction k with
  | zero => exact fun s _ hlt => absurd hlt (Nat.not_lt_zero _)
  | succ k ih =>
    intro s hs hlt
    have hadvances := h s hs (hinside s hs)
    cases hstep : step s with
    | next t =>
      obtain ⟨hforward, ht⟩ := hadvances.next hstep
      have hle := hbound _ ht
      obtain ⟨a, ha⟩ := ih t (hs.tail hstep) (by omega)
      refine ⟨a, fun fuel hfuel => ?_⟩
      obtain ⟨fuel, rfl⟩ : ∃ m, fuel = m + 1 := ⟨fuel - 1, by omega⟩
      rw [scan, hstep]
      exact ha fuel (by omega)
    | stop a =>
      refine ⟨a, fun fuel hfuel => ?_⟩
      obtain ⟨fuel, rfl⟩ : ∃ m, fuel = m + 1 := ⟨fuel - 1, by omega⟩
      rw [scan, hstep]
    | fail =>
      rw [Advances, hstep] at hadvances
      exact hadvances.elim

/-- A loop that ends never fails. -/
theorem ne_fail_of_ends (h : ∃ n a, scan step n s₀ = some a) (hs : Reached step s₀ s) :
    step s ≠ .fail := by
  induction hs using Relation.ReflTransGen.head_induction_on with
  | refl =>
    obtain ⟨n, a, ha⟩ := h
    intro hfail
    cases n with
    | zero => cases ha
    | succ n =>
      rw [scan, hfail] at ha
      cases ha
  | head hstep _ ih =>
    obtain ⟨n, a, ha⟩ := h
    cases n with
    | zero => cases ha
    | succ n =>
      rw [scan, hstep] at ha
      exact ih ⟨n, a, ha⟩

end Library
