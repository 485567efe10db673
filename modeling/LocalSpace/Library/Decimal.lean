import Mathlib.Algebra.BigOperators.Group.List.Basic
import Mathlib.Algebra.Order.Ring.Int
import Mathlib.Data.List.Basic

/-!
# Numbers written out

A number's decimal digits give it back, and hold no other character: so a text that ends in a
separator and a number is split in one way.
-/

namespace Library

namespace Decimal

theorem toList_toString (n : Nat) : (toString n).toList = Nat.toDigits 10 n := by
  rw [Nat.toString_eq_repr, Nat.toList_repr]

theorem toString_injective : Function.Injective (toString : Nat → String) := by
  intro m n h
  have hdigits : Nat.toDigits 10 m = Nat.toDigits 10 n := by
    rw [← toList_toString, ← toList_toString, h]
  rw [← Nat.ofDigitChars_ten_toDigits (n := m), hdigits, Nat.ofDigitChars_ten_toDigits]

theorem isDigit_of_mem {n : Nat} {c : Char} (h : c ∈ (toString n).toList) : c.isDigit = true := by
  rw [toList_toString] at h
  exact Nat.isDigit_of_mem_toDigits (by decide) (by decide) h

/-- Two lists are the same on both sides of the last of their separators. -/
theorem split_last {α : Type*} {sep : α} {l l' d d' : List α} (hd : sep ∉ d) (hd' : sep ∉ d')
    (h : l ++ sep :: d = l' ++ sep :: d') : l = l' ∧ d = d' := by
  induction l generalizing l' with
  | nil =>
    cases l' with
    | nil => exact ⟨rfl, (List.cons.inj h).2⟩
    | cons x l' =>
      have hmem : sep ∈ d := by
        rw [(List.cons.inj h).2]
        exact List.mem_append_right _ List.mem_cons_self
      exact absurd hmem hd
  | cons x l ih =>
    cases l' with
    | nil =>
      have hmem : sep ∈ d' := by
        rw [← (List.cons.inj h).2]
        exact List.mem_append_right _ List.mem_cons_self
      exact absurd hmem hd'
    | cons y l' =>
      obtain ⟨hxy, hrest⟩ := List.cons.inj h
      obtain ⟨hl, hdd⟩ := ih hrest
      exact ⟨by rw [hxy, hl], hdd⟩

/-- What stands before a separator and a number, and the number, are read back. -/
theorem sep_injective {sep : Char} (hsep : sep.isDigit = false) {s s' : String} {n n' : Nat}
    (h : s ++ sep.toString ++ toString n = s' ++ sep.toString ++ toString n') :
    s = s' ∧ n = n' := by
  have hlist := congrArg String.toList h
  simp only [String.toList_append, Char.toString_eq_singleton, String.toList_singleton,
    List.append_assoc, List.singleton_append] at hlist
  have hno : ∀ m : Nat, sep ∉ (toString m).toList := by
    intro m hm
    rw [isDigit_of_mem hm] at hsep
    cases hsep
  obtain ⟨hs, hn⟩ := split_last (hno n) (hno n') hlist
  exact ⟨String.toList_inj.mp hs, toString_injective (String.toList_inj.mp hn)⟩

end Decimal

end Library
