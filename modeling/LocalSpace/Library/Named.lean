import Mathlib.Algebra.BigOperators.Group.List.Basic
import Mathlib.Algebra.Order.Ring.Int
import Mathlib.Data.List.Infix
import Mathlib.Data.List.Nodup

/-!
# Lists whose elements have names

A list of elements of which some have a name. As long as no two have the same (`Distinct`), the
first element of a name is the only one of it, so that what is done where that element stands is
done to the one the name names (`Distinct.only`, `Distinct.removed`).
-/

namespace Library

namespace Named

variable {α κ : Type*} (name : α → Option κ)

/-- The names of a list, in its order. -/
@[grind =]
def names (l : List α) : List κ :=
  l.filterMap name

/-- No two elements have the same name. -/
@[grind =]
def Distinct (l : List α) : Prop :=
  (names name l).Nodup

/-- Where the first element of a name stands. -/
@[grind =]
def place [DecidableEq κ] (k : κ) (l : List α) : Option Nat :=
  l.findIdx? fun a => name a = some k

/-- One element alone has the name, and the list is as it was but for that element. -/
def Only (k : κ) (l l' : List α) : Prop :=
  ∃ i a, l[i]? = some a ∧ name a = some k ∧ (∀ j b, l[j]? = some b → name b = some k → j = i) ∧
    ∃ a', name a' = some k ∧ l' = l.set i a'

/-- One element alone has the name, and the list is as it was without that element. -/
def Removed (k : κ) (l l' : List α) : Prop :=
  ∃ i a, l[i]? = some a ∧ name a = some k ∧ (∀ j b, l[j]? = some b → name b = some k → j = i) ∧
    l' = l.eraseIdx i

variable {name} {k : κ} {l l' : List α} {i : Nat} {f : α → α}

theorem mem_names : k ∈ names name l ↔ ∃ a ∈ l, name a = some k :=
  List.mem_filterMap

@[simp]
theorem names_append : names name (l ++ l') = names name l ++ names name l' :=
  List.filterMap_append

theorem names_modify (h : ∀ a, name (f a) = name a) : names name (l.modify i f) = names name l := by
  induction l generalizing i with
  | nil => cases i <;> rfl
  | cons a rest ih =>
    cases i with
    | zero => simp [names, List.filterMap_cons, h]
    | succ i =>
      have hrest : List.filterMap name (rest.modify i f) = List.filterMap name rest := ih
      simp [names, List.filterMap_cons, hrest]

theorem names_eraseIdx_sublist (l : List α) (i : Nat) :
    (names name (l.eraseIdx i)).Sublist (names name l) :=
  (l.eraseIdx_sublist i).filterMap name

theorem place_eq_some [DecidableEq κ] (h : place name k l = some i) :
    ∃ a, l[i]? = some a ∧ name a = some k := by
  obtain ⟨hi, hname, _⟩ := List.findIdx?_eq_some_iff_getElem.mp h
  exact ⟨l[i], List.getElem?_eq_getElem hi, of_decide_eq_true hname⟩

theorem place_eq_none [DecidableEq κ] : place name k l = none ↔ k ∉ names name l := by
  rw [place, List.findIdx?_eq_none_iff, mem_names]
  constructor
  · rintro h ⟨a, ha, hname⟩
    exact absurd hname (of_decide_eq_false (h a ha))
  · intro h a ha
    exact decide_eq_false fun hname => h ⟨a, ha, hname⟩

theorem mem_of_place [DecidableEq κ] (h : place name k l = some i) : k ∈ names name l := by
  obtain ⟨a, ha, hname⟩ := place_eq_some h
  exact mem_names.mpr ⟨a, List.mem_of_getElem? ha, hname⟩

namespace Distinct

theorem modify (h : ∀ a, name (f a) = name a) (hl : Distinct name l) :
    Distinct name (l.modify i f) := by
  rw [Distinct, names_modify h]
  exact hl

theorem eraseIdx (hl : Distinct name l) (i : Nat) : Distinct name (l.eraseIdx i) :=
  (names_eraseIdx_sublist l i).nodup hl

/-- With distinct names an element is the only one of its name. -/
theorem unique (hl : Distinct name l) {j : Nat} {a b : α} (hi : l[i]? = some a)
    (ha : name a = some k) (hj : l[j]? = some b) (hb : name b = some k) : j = i := by
  induction l generalizing i j with
  | nil => simp at hi
  | cons x rest ih =>
    have hrest : Distinct name rest := (List.sublist_cons_self x rest).filterMap name |>.nodup hl
    -- a second element of the first one's name would be in the rest
    have hfirst : ∀ {j : Nat} {y : α}, name x = some k → rest[j]? = some y → name y ≠ some k := by
      intro j y hx hy hname
      have hmem : k ∈ names name rest := mem_names.mpr ⟨y, List.mem_of_getElem? hy, hname⟩
      have hl' : (k :: names name rest).Nodup := by
        simpa [Distinct, names, List.filterMap_cons, hx] using hl
      exact (List.nodup_cons.mp hl').1 hmem
    cases i with
    | zero =>
      cases j with
      | zero => rfl
      | succ j =>
        rw [List.getElem?_cons_zero, Option.some.injEq] at hi
        rw [List.getElem?_cons_succ] at hj
        exact absurd hb (hfirst (hi ▸ ha) hj)
    | succ i =>
      rw [List.getElem?_cons_succ] at hi
      cases j with
      | zero =>
        rw [List.getElem?_cons_zero, Option.some.injEq] at hj
        exact absurd ha (hfirst (hj ▸ hb) hi)
      | succ j =>
        rw [List.getElem?_cons_succ] at hj
        rw [ih hrest hi hj]

/-- What keeps the name and is done to the first element of it is done to the one it names. -/
theorem only [DecidableEq κ] (hl : Distinct name l) (h : ∀ a, name (f a) = name a)
    (hi : place name k l = some i) : Only name k l (l.modify i f) := by
  obtain ⟨a, ha, hname⟩ := place_eq_some hi
  refine ⟨i, a, ha, hname, fun j b hj hb => hl.unique ha hname hj hb, f a, ?_, ?_⟩
  · rw [h, hname]
  · rw [List.modify_eq_set_getElem?, ha]
    rfl

theorem removed [DecidableEq κ] (hl : Distinct name l) (hi : place name k l = some i) :
    Removed name k l (l.eraseIdx i) := by
  obtain ⟨a, ha, hname⟩ := place_eq_some hi
  exact ⟨i, a, ha, hname, fun j b hj hb => hl.unique ha hname hj hb, rfl⟩

end Distinct

end Named

/-! ### Elements that are left alone -/

/-- The elements that meet `p` are all still there, in their order. -/
@[grind =]
def Kept {α : Type*} (p : α → Bool) (l l' : List α) : Prop :=
  (l.filter p).Sublist l'

namespace Kept

variable {α : Type*} {p : α → Bool} {l l' l'' : List α} {i : Nat} {f : α → α} {a : α}

theorem refl (l : List α) : Kept p l l :=
  List.filter_sublist

theorem filter (h : Kept p l l') : (l.filter p).Sublist (l'.filter p) := by
  have hself : (l.filter p).filter p = l.filter p :=
    List.filter_eq_self.mpr fun a ha => (List.mem_filter.mp ha).2
  rw [← hself]
  exact List.Sublist.filter p h

theorem trans (h : Kept p l l') (h' : Kept p l' l'') : Kept p l l'' :=
  h.filter.trans h'

theorem append (h : Kept p l l') (new : List α) : Kept p l (l' ++ new) :=
  List.Sublist.trans h (List.sublist_append_left l' new)

/-- What is written over an element that does not meet `p`. -/
theorem modify (h : ∀ a, l[i]? = some a → p a = false) : Kept p l (l.modify i f) := by
  induction l generalizing i with
  | nil => cases i <;> exact List.Sublist.refl []
  | cons b rest ih =>
    cases i with
    | zero =>
      have hb : p b = false := h b rfl
      rw [Kept, List.filter_cons_of_neg (by simp [hb])]
      exact (refl rest).cons (f b)
    | succ i =>
      have hrest := ih (i := i) h
      by_cases hb : p b = true
      · rw [Kept, List.filter_cons_of_pos hb]
        exact hrest.cons_cons b
      · rw [Kept, List.filter_cons_of_neg hb]
        exact hrest.cons b

theorem eraseIdx (h : ∀ a, l[i]? = some a → p a = false) : Kept p l (l.eraseIdx i) := by
  induction l generalizing i with
  | nil => exact List.Sublist.refl []
  | cons b rest ih =>
    cases i with
    | zero =>
      have hb : p b = false := h b rfl
      rw [Kept, List.filter_cons_of_neg (by simp [hb])]
      exact refl rest
    | succ i =>
      have hrest := ih (i := i) h
      by_cases hb : p b = true
      · rw [Kept, List.filter_cons_of_pos hb]
        exact hrest.cons_cons b
      · rw [Kept, List.filter_cons_of_neg hb]
        exact hrest.cons b

/-- What is written over an element that meets `p`, so that it still does. -/
theorem not_modify (hi : l[i]? = some a) (ha : p a = true) (hfa : p (f a) = true)
    (hne : f a ≠ a) : ¬Kept p l (l.modify i f) := by
  have hparts : ∃ u v, l.filter p = u ++ a :: v ∧ (l.modify i f).filter p = u ++ f a :: v := by
    induction l generalizing i with
    | nil => simp at hi
    | cons b rest ih =>
      cases i with
      | zero =>
        rw [List.getElem?_cons_zero, Option.some.injEq] at hi
        subst hi
        refine ⟨[], rest.filter p, List.filter_cons_of_pos ha, ?_⟩
        exact List.filter_cons_of_pos hfa
      | succ i =>
        obtain ⟨u, v, hu, hv⟩ := ih (i := i) hi
        rw [List.modify_succ_cons]
        by_cases hb : p b = true
        · refine ⟨b :: u, v, ?_, ?_⟩
          · rw [List.filter_cons_of_pos hb, hu, List.cons_append]
          · rw [List.filter_cons_of_pos hb, hv, List.cons_append]
        · refine ⟨u, v, ?_, ?_⟩
          · rw [List.filter_cons_of_neg hb, hu]
          · rw [List.filter_cons_of_neg hb, hv]
  intro hkept
  obtain ⟨u, v, hu, hv⟩ := hparts
  have hfilter := hkept.filter
  rw [hu, hv] at hfilter
  have heq := hfilter.eq_of_length (by simp)
  rw [List.append_cancel_left_eq] at heq
  exact hne (List.cons.inj heq).1.symm

end Kept

end Library
