import Mathlib.Algebra.BigOperators.Group.List.Basic
import Mathlib.Algebra.Order.Ring.Int
import Mathlib.Data.List.Basic
import Mathlib.Order.Basic
import Mathlib.Order.Defs.LinearOrder

/-!
# Maps as lists in the order of their keys

A map is the list of its entries, keys strictly ascending: two such lists with the same value at
every key are the same list (`Ordered.ext`).
-/

namespace Library

variable {K V W : Type*} [LinearOrder K] {k : K} {x : V} {l l' : List (K × V)}

namespace Fields

/-- Keys strictly ascend. -/
def Ordered (l : List (K × V)) : Prop :=
  l.Pairwise fun a b => a.1 < b.1

instance (l : List (K × V)) : Decidable (Ordered l) :=
  inferInstanceAs (Decidable (l.Pairwise _))

/-- The entry of a key written: in its place, or put where it belongs. -/
@[grind =]
def put (k : K) (x : V) : List (K × V) → List (K × V)
  | [] => [(k, x)]
  | (k', y) :: rest =>
    if k = k' then (k, x) :: rest
    else if k < k' then (k, x) :: (k', y) :: rest
    else (k', y) :: put k x rest

theorem lookup_cons_self (k : K) (x : V) (l : List (K × V)) : ((k, x) :: l).lookup k = some x := by
  simp

theorem lookup_cons_ne {k' : K} (h : k' ≠ k) (x : V) (l : List (K × V)) :
    ((k, x) :: l).lookup k' = l.lookup k' := by
  rw [List.lookup_cons, beq_false_of_ne h]

@[simp]
theorem lookup_put_self (k : K) (x : V) (l : List (K × V)) : (put k x l).lookup k = some x := by
  induction l with
  | nil => simp [put]
  | cons entry rest ih =>
    unfold put
    split
    · exact lookup_cons_self k x rest
    · next hne =>
      split
      · exact lookup_cons_self k x _
      · rw [lookup_cons_ne hne]
        exact ih

theorem lookup_put_ne {k' : K} (h : k' ≠ k) (x : V) (l : List (K × V)) :
    (put k x l).lookup k' = l.lookup k' := by
  induction l with
  | nil => exact lookup_cons_ne h x []
  | cons entry rest ih =>
    obtain ⟨j, y⟩ := entry
    unfold put
    split
    · next heq =>
      subst heq
      rw [lookup_cons_ne h, lookup_cons_ne h]
    · split
      · exact lookup_cons_ne h x _
      · by_cases hj : k' = j
        · subst hj
          rw [lookup_cons_self, lookup_cons_self]
        · rw [lookup_cons_ne hj, lookup_cons_ne hj]
          exact ih

theorem mem_put {entry : K × V} (h : entry ∈ put k x l) : entry = (k, x) ∨ entry ∈ l := by
  induction l with
  | nil => exact .inl (by simpa [put] using h)
  | cons first rest ih =>
    unfold put at h
    split at h
    · rcases List.mem_cons.1 h with h | h
      · exact .inl h
      · exact .inr (List.mem_cons_of_mem _ h)
    · split at h
      · exact List.mem_cons.1 h
      · rcases List.mem_cons.1 h with h | h
        · exact .inr (h ▸ List.mem_cons_self)
        · exact (ih h).imp id (List.mem_cons_of_mem _)

theorem Ordered.put (h : Ordered l) (k : K) (x : V) : Ordered (put k x l) := by
  induction l with
  | nil => exact List.pairwise_singleton _ _
  | cons first rest ih =>
    obtain ⟨j, y⟩ := first
    obtain ⟨hfirst, hrest⟩ := List.pairwise_cons.1 h
    unfold Fields.put
    split
    · next heq =>
      subst heq
      exact List.pairwise_cons.2 ⟨hfirst, hrest⟩
    · next hne =>
      split
      · next hlt =>
        refine List.pairwise_cons.2 ⟨fun entry hmem => ?_, h⟩
        rcases List.mem_cons.1 hmem with rfl | hmem
        · exact hlt
        · exact hlt.trans (hfirst entry hmem)
      · next hlt =>
        refine List.pairwise_cons.2 ⟨fun entry hmem => ?_, ih hrest⟩
        rcases mem_put hmem with rfl | hmem
        · exact lt_of_le_of_ne (not_lt.1 hlt) (Ne.symm hne)
        · exact hfirst entry hmem

theorem lookup_eq_none (h : ∀ entry ∈ l, entry.1 ≠ k) : l.lookup k = none := by
  induction l with
  | nil => rfl
  | cons first rest ih =>
    obtain ⟨j, y⟩ := first
    rw [lookup_cons_ne (h (j, y) List.mem_cons_self).symm]
    exact ih fun entry hmem => h entry (List.mem_cons_of_mem _ hmem)

theorem mem_of_lookup (h : l.lookup k = some x) : (k, x) ∈ l := by
  induction l with
  | nil => cases h
  | cons first rest ih =>
    obtain ⟨j, y⟩ := first
    by_cases hk : k = j
    · subst hk
      rw [lookup_cons_self, Option.some.injEq] at h
      exact h ▸ List.mem_cons_self
    · rw [lookup_cons_ne hk] at h
      exact List.mem_cons_of_mem _ (ih h)

/-- In a map an entry is what its key finds. -/
theorem Ordered.lookup_of_mem (h : Ordered l) (hmem : (k, x) ∈ l) : l.lookup k = some x := by
  induction l with
  | nil => cases hmem
  | cons first rest ih =>
    obtain ⟨j, y⟩ := first
    obtain ⟨hfirst, hrest⟩ := List.pairwise_cons.1 h
    rcases List.mem_cons.1 hmem with heq | hmem
    · obtain ⟨rfl, rfl⟩ := Prod.mk.inj heq
      exact lookup_cons_self k x rest
    · rw [lookup_cons_ne (hfirst _ hmem).ne']
      exact ih hrest hmem

/-- **Maps with the same value at every key are the same.** -/
theorem Ordered.ext (h : Ordered l) (h' : Ordered l') (heq : ∀ k, l.lookup k = l'.lookup k) :
    l = l' := by
  induction l generalizing l' with
  | nil =>
    cases l' with
    | nil => rfl
    | cons first rest =>
      have := heq first.1
      rw [lookup_cons_self first.1 first.2 rest] at this
      cases this
  | cons first rest ih =>
    obtain ⟨j, y⟩ := first
    obtain ⟨hfirst, hrest⟩ := List.pairwise_cons.1 h
    cases l' with
    | nil =>
      have := heq j
      rw [lookup_cons_self] at this
      cases this
    | cons first' rest' =>
      obtain ⟨j', y'⟩ := first'
      obtain ⟨hfirst', hrest'⟩ := List.pairwise_cons.1 h'
      have hj := mem_of_lookup ((heq j).symm.trans (lookup_cons_self j y rest))
      have hj' := mem_of_lookup ((heq j').trans (lookup_cons_self j' y' rest'))
      -- each list's first key is in the other, so they are one
      have hkeys : j = j' := by
        rcases List.mem_cons.1 hj with h | h
        · exact (Prod.mk.inj h).1
        · rcases List.mem_cons.1 hj' with h'' | h''
          · exact (Prod.mk.inj h'').1.symm
          · exact absurd (hfirst _ h'') (hfirst' _ h).not_gt
      subst hkeys
      have hvalue := heq j
      rw [lookup_cons_self, lookup_cons_self, Option.some.injEq] at hvalue
      subst hvalue
      rw [ih hrest hrest' fun k => ?_]
      by_cases hk : k = j
      · subst hk
        rw [lookup_eq_none fun entry hmem => (hfirst entry hmem).ne',
          lookup_eq_none fun entry hmem => (hfirst' entry hmem).ne']
      · have := heq k
        rwa [lookup_cons_ne hk, lookup_cons_ne hk] at this

theorem Ordered.put_self (h : Ordered l) (hx : l.lookup k = some x) : Fields.put k x l = l := by
  refine (h.put k x).ext h fun j => ?_
  by_cases hj : j = k
  · subst hj
    rw [lookup_put_self, hx]
  · exact lookup_put_ne hj x l

theorem lookup_map (f : V → W) (k : K) (l : List (K × V)) :
    (l.map fun entry => (entry.1, f entry.2)).lookup k = (l.lookup k).map f := by
  induction l with
  | nil => rfl
  | cons first rest ih =>
    obtain ⟨j, y⟩ := first
    rw [List.map_cons]
    by_cases hk : k = j
    · subst hk
      rw [lookup_cons_self, lookup_cons_self]
      rfl
    · rw [lookup_cons_ne hk, lookup_cons_ne hk]
      exact ih

theorem Ordered.map (h : Ordered l) (f : V → W) :
    Ordered (l.map fun entry => (entry.1, f entry.2)) :=
  List.pairwise_map.2 h

theorem Ordered.filter (h : Ordered l) (p : K × V → Bool) : Ordered (l.filter p) :=
  List.Pairwise.filter p h

/-- A choice of keys keeps what they find. -/
theorem lookup_filter (p : K → Bool) (k : K) (l : List (K × V)) :
    (l.filter fun entry => p entry.1).lookup k = if p k then l.lookup k else none := by
  induction l with
  | nil => split <;> rfl
  | cons first rest ih =>
    obtain ⟨j, y⟩ := first
    by_cases hp : p j = true
    · rw [List.filter_cons_of_pos (p := fun entry : K × V => p entry.1) hp]
      by_cases hk : k = j
      · subst hk
        rw [lookup_cons_self, lookup_cons_self, if_pos hp]
      · rw [lookup_cons_ne hk, lookup_cons_ne hk]
        exact ih
    · rw [List.filter_cons_of_neg (p := fun entry : K × V => p entry.1) hp, ih]
      split
      · next hpk =>
        rw [lookup_cons_ne]
        rintro rfl
        exact hp hpk
      · rfl

/-- The last entry has the greatest key. -/
theorem Ordered.le_last (h : Ordered l) {last : K × V} (hlast : l.getLast? = some last)
    {entry : K × V} (hmem : entry ∈ l) : entry.1 ≤ last.1 := by
  have hsplit := List.dropLast_append_getLast? last hlast
  rw [← hsplit] at h hmem
  rcases List.mem_append.1 hmem with hmem | hmem
  · exact ((List.pairwise_append.1 h).2.2 entry hmem last List.mem_cons_self).le
  · rw [List.mem_singleton.1 hmem]

/-- More put at the last key, or at a new one after it, comes last. -/
theorem Ordered.flatMap_put {A : Type*} {l : List (K × List A)} (h : Ordered l) {k : K}
    (hlast : ∀ entry ∈ l, entry.1 ≤ k) (more : List A) :
    (Fields.put k ((l.lookup k).getD [] ++ more) l).flatMap Prod.snd =
      l.flatMap Prod.snd ++ more := by
  induction l with
  | nil => simp [Fields.put]
  | cons first rest ih =>
    obtain ⟨j, items⟩ := first
    obtain ⟨hfirst, hrest⟩ := List.pairwise_cons.1 h
    have hj := hlast (j, items) List.mem_cons_self
    rw [Fields.put]
    by_cases hk : k = j
    · subst hk
      -- nothing comes after the last key
      have hnil : rest = [] := List.eq_nil_iff_forall_not_mem.2 fun entry hmem =>
        absurd (hlast entry (List.mem_cons_of_mem _ hmem)) (hfirst entry hmem).not_ge
      rw [if_pos rfl, lookup_cons_self, hnil]
      simp
    · rw [if_neg hk, if_neg hj.not_gt, lookup_cons_ne hk, List.flatMap_cons, List.flatMap_cons,
        ih hrest fun entry hmem => hlast entry (List.mem_cons_of_mem _ hmem), List.append_assoc]

end Fields

end Library
