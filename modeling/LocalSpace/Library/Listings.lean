import Mathlib.Algebra.BigOperators.Group.List.Basic
import Mathlib.Algebra.Order.Ring.Int
import Mathlib.Data.List.Induction
import Mathlib.Data.List.Nodup
import Mathlib.Order.Basic

/-!
# Listings

Which of two stands first in a list that grows at its end; what holds wherever a list is split; and
the last of those with the greatest key, as a loop over a list comes to it.
-/

namespace Library

variable {α κ : Type} {l l' : List α} {a b x : α}

/-! ### Which stands first -/

/-- One stands before the other. -/
def Precedes (l : List α) (a b : α) : Prop :=
  [a, b].Sublist l

theorem Precedes.append (h : Precedes l a b) (l' : List α) : Precedes (l ++ l') a b :=
  h.trans (List.sublist_append_left l l')

theorem precedes_append (ha : a ∈ l) (hb : b ∈ l') : Precedes (l ++ l') a b :=
  (List.singleton_sublist.mpr ha).append (List.singleton_sublist.mpr hb)

@[simp] theorem precedes_reverse : Precedes l.reverse a b ↔ Precedes l b a := by
  have hpair : [a, b] = [b, a].reverse := by simp
  rw [Precedes, hpair, List.reverse_sublist, Precedes]

/-- Two that stand in a list already stand there as they do in what it grows to. -/
theorem Precedes.of_append (hnodup : (l ++ l').Nodup) (hb : b ∈ l)
    (h : Precedes (l ++ l') a b) : Precedes l a b := by
  have hapart := List.disjoint_of_nodup_append hnodup
  obtain ⟨l₁, l₂, hpair, hleft, hright⟩ := List.sublist_append_iff.mp h
  rcases l₂.eq_nil_or_concat' with rfl | ⟨init, last, rfl⟩
  · rw [List.append_nil] at hpair
    rw [Precedes, hpair]
    exact hleft
  · have hlast : last = b := by
      have hends := congrArg List.getLast? hpair
      simpa [← List.append_assoc] using hends.symm
    subst hlast
    exact (hapart hb (hright.subset (by simp))).elim

/-- One stands in a list, and whatever the other is it comes later. -/
def Leads (l : List α) (a b : α) : Prop :=
  a ∈ l ∧ (b ∈ l → Precedes l a b)

theorem Leads.append (h : Leads l a b) (l' : List α) : Leads (l ++ l') a b := by
  refine ⟨List.mem_append_left _ h.1, fun hb => ?_⟩
  rcases List.mem_append.mp hb with hb | hb
  · exact (h.2 hb).append l'
  · exact precedes_append h.1 hb

/-- What holds of each place of a list, and of what stands before it. -/
theorem forall_split {P : List α → α → Prop} (h : ∀ k : Fin l.length, P (l.take k) l[k])
    (before : List α) (x : α) (after : List α) (hsplit : l = before ++ x :: after) :
    P before x := by
  subst hsplit
  simpa using h ⟨before.length, by simp⟩

/-! ### The greatest -/

section Greatest

variable [LinearOrder κ] {key : α → κ} {xs : List α}

/-- The last of the elements whose key is the greatest. -/
def maxByKey (key : α → κ) (xs : List α) : Option α :=
  xs.foldl (fun best x => best.elim (some x) fun b => if key b ≤ key x then some x else some b) none

theorem maxByKey_concat (key : α → κ) (xs : List α) (x : α) :
    maxByKey key (xs ++ [x]) =
      (maxByKey key xs).elim (some x) fun b => if key b ≤ key x then some x else some b := by
  simp only [maxByKey, List.foldl_append, List.foldl_cons, List.foldl_nil]

theorem maxByKey_isSome (key : α → κ) (hx : x ∈ xs) : (maxByKey key xs).isSome := by
  rcases xs.eq_nil_or_concat' with rfl | ⟨init, last, rfl⟩
  · cases hx
  · rw [maxByKey_concat]
    rcases maxByKey key init with _ | c
    · rfl
    · simp only [Option.elim_some]
      split <;> rfl

/-- **The greatest** is one of the elements, with none above. -/
theorem maxByKey_greatest (h : maxByKey key xs = some a) :
    a ∈ xs ∧ ∀ x ∈ xs, key x ≤ key a := by
  induction xs using List.reverseRecOn generalizing a with
  | nil => cases h
  | append_singleton xs y ih =>
    rw [maxByKey_concat] at h
    rcases hbest : maxByKey key xs with _ | b
    · have hnil : xs = [] := by
        rcases xs.eq_nil_or_concat' with rfl | ⟨init, last, rfl⟩
        · rfl
        · have hmem : last ∈ init ++ [last] := by simp
          have hsome := maxByKey_isSome key hmem
          rw [hbest] at hsome
          cases hsome
      rw [hbest] at h
      cases h
      subst hnil
      simp
    · obtain ⟨hmem, hle⟩ := ih hbest
      rw [hbest, Option.elim_some] at h
      simp only [List.mem_append, List.mem_singleton]
      split at h
      · rename_i hless
        cases h
        refine ⟨.inr rfl, ?_⟩
        rintro x (hx | rfl)
        · exact (hle x hx).trans hless
        · exact le_rfl
      · rename_i hmore
        cases h
        refine ⟨.inl hmem, ?_⟩
        rintro x (hx | rfl)
        · exact hle x hx
        · exact (not_le.mp hmore).le

end Greatest

end Library
