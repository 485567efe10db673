import Mathlib.Algebra.BigOperators.Group.List.Basic
import Mathlib.Algebra.Order.Ring.Int
import Mathlib.Data.List.Basic
import Mathlib.Data.List.Induction
import Mathlib.Logic.Function.Basic

/-!
# Lists of records chained by the hash of the one before

Over arbitrary records, each of which names a hash `prev`, and a hash of records: `Chained g rs`
says that the first of `rs` names `g` and each other the hash of the record before it. A chain is
built by appending (`chained_concat`), and where the hash tells records apart and none hashes to
`g`, its last record commits to all of it (`Chained.eq_of_getLast?`).
-/

namespace Library

section HashChain

variable {R H : Type*} (prev hash : R → H)

/-- A chain of records that begins after the hash `g`. -/
def Chained : H → List R → Prop
  | _, [] => True
  | g, r :: rest => prev r = g ∧ Chained (hash r) rest

instance Chained.decidable [DecidableEq H] :
    ∀ (g : H) (rs : List R), Decidable (Chained prev hash g rs)
  | _, [] => .isTrue trivial
  | _, r :: rest =>
    have := Chained.decidable (hash r) rest
    inferInstanceAs (Decidable (_ ∧ _))

/-- The hash the next record of a chain has to name. -/
def tip (g : H) (rs : List R) : H :=
  (rs.getLast?.map hash).getD g

@[simp] theorem tip_nil (g : H) : tip hash g [] = g := rfl

@[simp] theorem tip_concat (g : H) (rs : List R) (r : R) : tip hash g (rs ++ [r]) = hash r := by
  simp only [tip, List.getLast?_concat, Option.map_some, Option.getD_some]

theorem tip_cons (g : H) (r : R) (rs : List R) : tip hash g (r :: rs) = tip hash (hash r) rs := by
  cases rs with
  | nil => rfl
  | cons r' rest => simp only [tip, List.getLast?_cons, Option.map_some, Option.getD_some]

variable {prev hash} {g : H}

theorem chained_append {rs rs' : List R} : Chained prev hash g (rs ++ rs') ↔
    Chained prev hash g rs ∧ Chained prev hash (tip hash g rs) rs' := by
  induction rs generalizing g with
  | nil => simp [Chained]
  | cons r rest ih => rw [List.cons_append, Chained, Chained, ih, tip_cons, and_assoc]

/-- A chain is extended by exactly the records that name the hash of its last. -/
theorem chained_concat {rs : List R} {r : R} : Chained prev hash g (rs ++ [r]) ↔
    Chained prev hash g rs ∧ prev r = tip hash g rs := by
  rw [chained_append]
  simp only [Chained, and_true]

/-- **The last record commits to the chain**: two chains from `g` with the same last record are
the same, where the hash is injective and never `g`. -/
theorem Chained.eq_of_getLast? (hinj : Function.Injective hash) (hg : ∀ r, hash r ≠ g)
    {rs rs' : List R} (h : Chained prev hash g rs) (h' : Chained prev hash g rs')
    (hlast : rs.getLast? = rs'.getLast?) : rs = rs' := by
  induction rs using List.reverseRecOn generalizing rs' with
  | nil =>
    have hnone : rs'.getLast? = none := hlast.symm
    rw [List.getLast?_eq_none_iff] at hnone
    exact hnone.symm
  | append_singleton rs r ih =>
    cases rs' using List.reverseRecOn with
    | nil => simp at hlast
    | append_singleton rs' r' =>
      rw [List.getLast?_concat, List.getLast?_concat, Option.some.injEq] at hlast
      subst hlast
      rw [chained_concat] at h h'
      -- the records before are chains up to the same hash, so they end alike
      have htip : tip hash g rs = tip hash g rs' := h.2.symm.trans h'.2
      have hends : rs.getLast? = rs'.getLast? := by
        rw [tip, tip] at htip
        cases hr : rs.getLast? with
        | none =>
          cases hr' : rs'.getLast? with
          | none => rfl
          | some q' =>
            rw [hr, hr'] at htip
            exact absurd htip.symm (hg q')
        | some q =>
          cases hr' : rs'.getLast? with
          | none =>
            rw [hr, hr'] at htip
            exact absurd htip (hg q)
          | some q' =>
            rw [hr, hr'] at htip
            rw [hinj htip]
      rw [ih h.1 h'.1 hends]

end HashChain

end Library
