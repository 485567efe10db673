import Mathlib.Algebra.BigOperators.Group.List.Basic
import Mathlib.Algebra.Order.Ring.Int
import Mathlib.Logic.Relation
import Mathlib.Order.Defs.Unbundled

/-!
# Runs of a labelled system, and what a piece of code does act by act

Two notions of a sequence of steps, over arbitrary types.

* `System.Runs S ok s t`: a run of the labelled system `S` from `s` to `t`, each of whose
  labels was enabled and met the condition `ok` where it came. `Runs.invariant` is the
  induction along a run; `runs_of_list` turns a list of labels whose conditions can be
  decided into a run.
* `Does act ps s t`: a piece of code took `s` to `t` by acts of the kinds `ps` alone.
  `Does.frame` is the frame rule, a quantity no act of these kinds changes is unchanged,
  and `Does.preserves` the invariant rule.
-/

namespace Library

/-- A labelled system: what a label does to a state, and where it may come. -/
structure System (σ α : Type*) where
  step : σ → α → σ
  enabled : σ → α → Prop

namespace System

variable {σ α : Type*} (S : System σ α)

/-- `Runs ok s t`: a run from `s` to `t` each of whose labels met `ok` in the state it
came in. -/
inductive Runs (ok : σ → α → Prop) (s : σ) : σ → Prop
  | refl : Runs ok s s
  | tail {t : σ} {a : α} (run : Runs ok s t) (came : S.enabled t a) (met : ok t a) :
      Runs ok s (S.step t a)

variable {S} {ok ok' : σ → α → Prop} {s t u : σ}

theorem Runs.trans (hst : S.Runs ok s t) (htu : S.Runs ok t u) : S.Runs ok s u := by
  induction htu with
  | refl => exact hst
  | tail _ he ha ih => exact ih.tail he ha

theorem Runs.mono (h : S.Runs ok s t) (hok : ∀ t a, ok t a → ok' t a) : S.Runs ok' s t := by
  induction h with
  | refl => exact .refl
  | tail _ he ha ih => exact ih.tail he (hok _ _ ha)

/-- **Induction along a run**: what holds at its start, and is kept by every step that meets
the run's condition, holds at its end. -/
theorem Runs.invariant {I : σ → Prop} (h : S.Runs ok s t) (hs : I s)
    (hstep : ∀ t a, I t → S.enabled t a → ok t a → I (S.step t a)) : I t := by
  induction h with
  | refl => exact hs
  | tail _ he ha ih => exact hstep _ _ ih he ha

/-- The state after a list of labels, whatever their conditions. -/
@[grind =]
def run (S : System σ α) (s : σ) (labels : List α) : σ :=
  labels.foldl S.step s

/-- Every label of the list is enabled and meets `ok` where it comes. -/
def Allowed (S : System σ α) (ok : σ → α → Prop) : σ → List α → Prop
  | _, [] => True
  | s, a :: rest => S.enabled s a ∧ ok s a ∧ Allowed S ok (S.step s a) rest

instance Allowed.decidable [∀ s a, Decidable (S.enabled s a)] [∀ s a, Decidable (ok s a)] :
    ∀ (s : σ) (labels : List α), Decidable (S.Allowed ok s labels)
  | _, [] => .isTrue trivial
  | s, a :: rest =>
    have := Allowed.decidable (S.step s a) rest
    inferInstanceAs (Decidable (_ ∧ _ ∧ _))

/-- A list of labels allowed from `s` is a run. -/
theorem runs_of_list {labels : List α} (h : S.Allowed ok s labels) :
    S.Runs ok s (S.run s labels) := by
  induction labels generalizing s with
  | nil => exact .refl
  | cons a rest ih =>
    obtain ⟨he, ha, hrest⟩ := h
    exact (Runs.tail .refl he ha).trans (ih hrest)

end System

/-! ### Acts -/

section Acts

variable {σ π : Type*} (act : π → σ → σ → Prop)

/-- `Does act ps s t`: from `s` to `t` by acts of the kinds `ps` alone. -/
def Does (ps : List π) : σ → σ → Prop :=
  Relation.ReflTransGen fun s t => ∃ p ∈ ps, act p s t

variable {act} {ps qs : List π} {s t u : σ}

theorem Does.refl : Does act ps s s :=
  Relation.ReflTransGen.refl

theorem Does.trans (hst : Does act ps s t) (htu : Does act ps t u) : Does act ps s u :=
  Relation.ReflTransGen.trans hst htu

/-- One act, of a kind among `ps`. -/
theorem Does.single {p : π} (hact : act p s t) (hp : p ∈ ps) : Does act ps s t :=
  Relation.ReflTransGen.single ⟨p, hp, hact⟩

/-- One more act, of a kind among `ps`. -/
theorem Does.tail {p : π} (h : Does act ps s t) (hact : act p t u) (hp : p ∈ ps) :
    Does act ps s u :=
  Relation.ReflTransGen.tail h ⟨p, hp, hact⟩

theorem Does.mono (h : Does act ps s t) (hsub : ps ⊆ qs) : Does act qs s t :=
  Relation.ReflTransGen.mono (fun _ _ ⟨p, hp, hact⟩ => ⟨p, hsub hp, hact⟩) _ _ h

/-- **The invariant rule**: what every act of these kinds keeps is kept. -/
theorem Does.preserves {I : σ → Prop} (h : Does act ps s t)
    (hact : ∀ p ∈ ps, ∀ s t, act p s t → I s → I t) (hs : I s) : I t := by
  induction h with
  | refl => exact hs
  | tail _ hstep ih =>
    obtain ⟨p, hp, hpa⟩ := hstep
    exact hact p hp _ _ hpa ih

/-- **The frame rule**: what no act of these kinds changes is unchanged. -/
theorem Does.frame {β : Sort*} (f : σ → β) (h : Does act ps s t)
    (hact : ∀ p ∈ ps, ∀ s t, act p s t → f t = f s) : f t = f s :=
  h.preserves (I := fun t => f t = f s) (fun p hp _ _ ha ih => (hact p hp _ _ ha).trans ih) rfl

instance Does.isPreorder (act : π → σ → σ → Prop) (ps : List π) : IsPreorder σ (Does act ps) where
  refl _ := .refl
  trans _ _ _ := .trans

end Acts

end Library
