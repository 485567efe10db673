import Mathlib.Algebra.BigOperators.Group.List.Basic
import Mathlib.Algebra.Order.BigOperators.Group.List
import Mathlib.Algebra.Order.Group.Nat
import Mathlib.Algebra.Order.Ring.Int
import Mathlib.Data.List.Basic

/-!
# A line of jobs before some slots

Jobs of several owners stand in one line, oldest first. A job waits `behind` an older job of
its owner's, or in `line` for a slot; it is `served` in a slot, or `held` without one.
`goes` says where a waiting job belongs.

* `Ordered`: only an owner's oldest job is anything but behind. It survives a job's leaving
  (`Ordered.filter`), a job's coming (`Ordered.push`) and a job's moving (`Ordered.put`).
-/

namespace Library.SlotLine

inductive Place where
  | behind | line | served | held
  deriving DecidableEq

namespace Place

@[grind =]
def waits : Place → Bool
  | behind => true
  | line => true
  | _ => false

end Place

variable {J O : Type*} (owner : J → O) (place : J → Place)

/-- How many jobs are served. -/
@[grind =]
def served (jobs : List J) : Nat :=
  jobs.countP fun j => place j = .served

/-- Only an owner's oldest job is anything but behind. -/
def Ordered (jobs : List J) : Prop :=
  jobs.Pairwise fun a b => owner a = owner b → place b = .behind

variable {owner place} {jobs before after : List J} {j j' : J}

/-! ### Counting -/

theorem served_put : served place (before ++ j :: after) =
    served place before + (if place j = .served then 1 else 0) + served place after := by
  simp only [served, List.countP_append, List.countP_cons, decide_eq_true_eq]
  omega

theorem served_push : served place (jobs ++ [j]) =
    served place jobs + if place j = .served then 1 else 0 := by
  simp only [served, List.countP_append, List.countP_singleton, decide_eq_true_eq]

theorem served_filter_le (p : J → Bool) : served place (jobs.filter p) ≤ served place jobs :=
  List.filter_sublist.countP_le

/-! ### The order of an owner's jobs -/

namespace Ordered

/-- A job that is not behind has no older one of its owner's. -/
theorem none_older (h : Ordered owner place (before ++ j :: after)) (hj : place j ≠ .behind) :
    ∀ o ∈ before, owner o ≠ owner j := by
  intro o ho heq
  exact hj ((List.pairwise_append.1 h).2.2 o ho j List.mem_cons_self heq)

theorem filter (h : Ordered owner place jobs) (p : J → Bool) :
    Ordered owner place (jobs.filter p) :=
  List.Pairwise.filter p h

/-- A job comes, behind any older one of its owner's. -/
theorem push (h : Ordered owner place jobs)
    (hj : (∃ o ∈ jobs, owner o = owner j) → place j = .behind) :
    Ordered owner place (jobs ++ [j]) := by
  refine List.pairwise_append.2 ⟨h, List.pairwise_singleton _ _, fun a ha b hb heq => ?_⟩
  rw [List.mem_singleton.1 hb] at heq ⊢
  exact hj ⟨a, ha, heq⟩

/-- Jobs change in place, none that is behind coming forward. -/
theorem map (h : Ordered owner place jobs) {f : J → J} (hown : ∀ j, owner (f j) = owner j)
    (hf : ∀ j ∈ jobs, place j = .behind → place (f j) = .behind) :
    Ordered owner place (jobs.map f) := by
  refine List.pairwise_map.2 (List.Pairwise.imp_of_mem (fun {a b} _ hb hab heq => ?_) h)
  exact hf b hb (hab (by rwa [hown, hown] at heq))

/-- A job moves; what has no older one of its owner's may move anywhere. -/
theorem put (h : Ordered owner place (before ++ j :: after)) (hown : owner j' = owner j)
    (hj : ∀ o ∈ before, owner o ≠ owner j) : Ordered owner place (before ++ j' :: after) := by
  obtain ⟨hb, hja, hba⟩ := List.pairwise_append.1 h
  obtain ⟨hj2, ha⟩ := List.pairwise_cons.1 hja
  refine List.pairwise_append.2 ⟨hb, List.pairwise_cons.2 ⟨?_, ha⟩, ?_⟩
  · intro b hb' heq
    exact hj2 b hb' (hown ▸ heq)
  · intro a ha' b hb' heq
    rcases List.mem_cons.1 hb' with rfl | hb'
    · exact absurd (heq.trans hown) (hj a ha')
    · exact hba a ha' b (List.mem_cons_of_mem _ hb') heq

end Ordered

section Slots

variable [DecidableEq O] (owner place) (cap : Nat)

/-- Where a waiting job that came after `before` belongs, among `jobs`. -/
@[grind =]
def goes (jobs before : List J) (j : J) : Place :=
  if before.any fun o => owner o = owner j then .behind
  else if cap ≤ served place jobs then .line
  else .served

variable {owner place cap}

/-! ### Where a job goes -/

theorem goes_eq_behind_iff :
    goes owner place cap jobs before j = .behind ↔ ∃ o ∈ before, owner o = owner j := by
  unfold goes
  split
  · next h => simpa using h
  · next h =>
    simp only [List.any_eq_true, decide_eq_true_eq] at h
    simp only [h, iff_false]
    split <;> simp

theorem goes_eq_served_iff : goes owner place cap jobs before j = .served ↔
    (∀ o ∈ before, owner o ≠ owner j) ∧ served place jobs < cap := by
  unfold goes
  split
  · next h =>
    simp only [List.any_eq_true, decide_eq_true_eq] at h
    obtain ⟨o, ho, heq⟩ := h
    simp only [reduceCtorEq, false_iff, not_and]
    exact fun hne => absurd heq (hne o ho)
  · next h =>
    simp only [List.any_eq_true, decide_eq_true_eq, not_exists, not_and] at h
    split <;> simp_all

/-- A job that goes anywhere but behind has no older one of its owner's. -/
theorem none_older_of_goes (h : goes owner place cap jobs before j ≠ .behind) :
    ∀ o ∈ before, owner o ≠ owner j :=
  fun o ho heq => h (goes_eq_behind_iff.2 ⟨o, ho, heq⟩)

end Slots

end Library.SlotLine
