import Mathlib.Data.List.Infix
import Mathlib.Data.Fintype.EquivFin
import LocalSpace.Library.Decimal

/-!
# Paths, and where they lead

Parts of a text split at separators, and lists of segments in which `..` goes up (`settle`). A
relative path that never goes above where it starts (`Below`) leads under every directory it is
joined to, and any other out of some.
-/

namespace Library

namespace Paths

/-! ### Texts split at separators -/

section Pieces

variable {α : Type*} {sep sep' : α → Bool} {l p : List α}

theorem splitOnP_cases (sep : α → Bool) (l : List α) : ∃ p ps, l.splitOnP sep = p :: ps ∧ p <+: l ∧
    ∀ q ∈ ps, q <:+: l := by
  induction l with
  | nil => exact ⟨[], [], List.splitOnP_nil, List.prefix_refl [], nofun⟩
  | cons a l ih =>
    obtain ⟨p, ps, hsplit, hp, hps⟩ := ih
    have htail : l <:+: a :: l := (List.suffix_cons a l).isInfix
    rw [List.splitOnP_cons_eq_if_modifyHead, hsplit]
    split
    · refine ⟨[], p :: ps, rfl, List.nil_prefix, fun q hq => ?_⟩
      obtain rfl | hq := List.mem_cons.mp hq
      · exact hp.isInfix.trans htail
      · exact (hps q hq).trans htail
    · refine ⟨a :: p, ps, rfl, (List.prefix_cons_inj a).mpr hp, fun q hq => ?_⟩
      exact (hps q hq).trans htail

/-- A part of a text is found in it. -/
theorem infix_of_mem_splitOnP (h : p ∈ l.splitOnP sep) : p <:+: l := by
  obtain ⟨q, qs, hsplit, hq, hqs⟩ := splitOnP_cases sep l
  rw [hsplit] at h
  obtain rfl | h := List.mem_cons.mp h
  · exact hq.isInfix
  · exact hqs p h

/-- What is no separator lies in a part. -/
theorem exists_mem_splitOnP {a : α} (h : a ∈ l) (ha : sep a = false) :
    ∃ p ∈ l.splitOnP sep, a ∈ p := by
  induction l with
  | nil => cases h
  | cons b l ih =>
    rw [List.splitOnP_cons_eq_if_modifyHead]
    obtain ⟨q, qs, hsplit, _⟩ := splitOnP_cases sep l
    rw [hsplit] at ih ⊢
    obtain rfl | h := List.mem_cons.mp h
    · rw [ha, if_neg Bool.false_ne_true]
      exact ⟨a :: q, List.mem_cons_self, List.mem_cons_self⟩
    · obtain ⟨p, hp, hmem⟩ := ih h
      split
      · exact ⟨p, List.mem_cons_of_mem _ hp, hmem⟩
      · obtain rfl | hp := List.mem_cons.mp hp
        · exact ⟨b :: p, List.mem_cons_self, List.mem_cons_of_mem _ hmem⟩
        · exact ⟨p, List.mem_cons_of_mem _ hp, hmem⟩

/-- A part that has none of more separators is a part between these. -/
theorem mem_splitOnP_of_finer (hsub : ∀ a, sep a = true → sep' a = true)
    (hp : ∀ a ∈ p, sep' a = false) (h : p ∈ l.splitOnP sep) : p ∈ l.splitOnP sep' := by
  have hparts : ∀ l : List α, (∀ q qs, l.splitOnP sep = q :: qs → (∀ a ∈ q, sep' a = false) →
        ∃ qs', l.splitOnP sep' = q :: qs') ∧
      ∀ q qs, l.splitOnP sep = q :: qs → p ∈ qs → p ∈ (l.splitOnP sep').tail := by
    intro l
    induction l with
    | nil =>
      refine ⟨fun q qs hsplit _ => ⟨qs, ?_⟩, fun q qs hsplit hmem => ?_⟩
      · rw [← hsplit, List.splitOnP_nil, List.splitOnP_nil]
      · rw [List.splitOnP_nil] at hsplit
        rw [← (List.cons.inj hsplit).2] at hmem
        cases hmem
    | cons a l ih =>
      obtain ⟨hhead, htail⟩ := ih
      obtain ⟨first, others, hl, _⟩ := splitOnP_cases sep l
      obtain ⟨first', others', hl', _⟩ := splitOnP_cases sep' l
      rw [List.splitOnP_cons_eq_if_modifyHead, List.splitOnP_cons_eq_if_modifyHead, hl, hl']
      by_cases ha : sep a = true
      · rw [if_pos ha, if_pos (hsub a ha)]
        refine ⟨fun q qs hsplit _ => ⟨first' :: others', ?_⟩, fun q qs hsplit hmem => ?_⟩
        · rw [(List.cons.inj hsplit).1]
        · rw [← (List.cons.inj hsplit).2] at hmem
          rw [List.tail_cons, ← hl']
          obtain rfl | hmem := List.mem_cons.mp hmem
          · obtain ⟨qs', hqs'⟩ := hhead p others hl hp
            rw [hqs']
            exact List.mem_cons_self
          · have hin := htail first others hl hmem
            exact List.mem_of_mem_tail hin
      · rw [if_neg ha]
        simp only [List.modifyHead_cons]
        refine ⟨fun q qs hsplit hq => ?_, fun q qs hsplit hmem => ?_⟩
        · obtain ⟨rfl, rfl⟩ := List.cons.inj hsplit
          rw [if_neg (by rw [hq a List.mem_cons_self]; exact Bool.false_ne_true)]
          obtain ⟨qs', hqs'⟩ := hhead first others hl fun b hb => hq b (List.mem_cons_of_mem a hb)
          rw [hl'] at hqs'
          exact ⟨qs', by rw [(List.cons.inj hqs').1, (List.cons.inj hqs').2]⟩
        · obtain ⟨_, rfl⟩ := List.cons.inj hsplit
          have hin := htail first others hl hmem
          rw [hl', List.tail_cons] at hin
          split
          · exact List.mem_cons_of_mem _ hin
          · exact hin
  obtain ⟨q, qs, hsplit, _⟩ := splitOnP_cases sep l
  obtain ⟨hhead, htail⟩ := hparts l
  rw [hsplit] at h
  obtain rfl | h := List.mem_cons.mp h
  · obtain ⟨qs', hqs'⟩ := hhead p qs hsplit hp
    rw [hqs']
    exact List.mem_cons_self
  · exact List.mem_of_mem_tail (htail q qs hsplit h)

end Pieces

/-! ### Segments -/

/-- Where some segments lead from a place: `..` goes up, and at the root stays there. -/
@[grind =]
def settle : List String → List String → List String
  | place, [] => place
  | place, seg :: rest => settle (if seg = ".." then place.dropLast else place ++ [seg]) rest

/-- Segments that never go above where they start, after so many below it. -/
@[grind =]
def BelowFrom : Nat → List String → Prop
  | _, [] => True
  | n, seg :: rest => if seg = ".." then 0 < n ∧ BelowFrom (n - 1) rest else BelowFrom (n + 1) rest

/-- Segments that never go above where they start. -/
abbrev Below : List String → Prop :=
  BelowFrom 0

instance BelowFrom.decide : (n : Nat) → (segs : List String) → Decidable (BelowFrom n segs)
  | _, [] => .isTrue trivial
  | n, seg :: rest => by
    have := BelowFrom.decide (n - 1) rest
    have := BelowFrom.decide (n + 1) rest
    rw [BelowFrom]
    infer_instance

section Segments

variable {place segs rest : List String} {n : Nat} {d : String}

theorem settle_append (place segs rest : List String) :
    settle place (segs ++ rest) = settle (settle place segs) rest := by
  induction segs generalizing place with
  | nil => rfl
  | cons seg segs ih => exact ih _

/-- What stays below leads under where it starts. -/
theorem prefix_settle (base extra : List String) (h : BelowFrom extra.length segs) :
    base <+: settle (base ++ extra) segs := by
  induction segs generalizing extra with
  | nil => exact List.prefix_append base extra
  | cons seg rest ih =>
    rw [settle]
    rw [BelowFrom] at h
    split at h
    · next hup =>
      obtain ⟨hpos, hrest⟩ := h
      have hne : extra ≠ [] := List.ne_nil_of_length_pos hpos
      rw [if_pos hup, List.dropLast_append_of_ne_nil hne]
      refine ih _ ?_
      rw [List.length_dropLast]
      exact hrest
    · next hdown =>
      rw [if_neg hdown, List.append_assoc]
      refine ih _ ?_
      rw [List.length_append, List.length_singleton]
      exact h

theorem below_of_no_up (h : ".." ∉ segs) : BelowFrom n segs := by
  induction segs generalizing n with
  | nil => trivial
  | cons seg rest ih =>
    have hne : seg ≠ ".." := by
      rintro rfl
      exact h List.mem_cons_self
    rw [BelowFrom, if_neg hne]
    exact ih fun hmem => h (List.mem_cons_of_mem _ hmem)

theorem mem_settle (h : d ∈ settle place segs) : d ∈ place ∨ d ∈ segs := by
  induction segs generalizing place with
  | nil => exact .inl h
  | cons seg rest ih =>
    rw [settle] at h
    obtain hin | hin := ih h
    · split at hin
      · exact .inl (List.mem_of_mem_dropLast hin)
      · obtain hin | hin := List.mem_append.mp hin
        · exact .inl hin
        · rw [List.mem_singleton.mp hin]
          exact .inr List.mem_cons_self
    · exact .inr (List.mem_cons_of_mem _ hin)

theorem settle_of_no_up (h : ".." ∉ segs) : settle place segs = place ++ segs := by
  induction segs generalizing place with
  | nil => rw [settle, List.append_nil]
  | cons seg rest ih =>
    have hne : seg ≠ ".." := by
      rintro rfl
      exact h List.mem_cons_self
    rw [settle, if_neg hne, ih fun hmem => h (List.mem_cons_of_mem _ hmem), List.append_assoc]
    rfl

theorem no_up_settle (h : ".." ∉ place) : ".." ∉ settle place segs := by
  induction segs generalizing place with
  | nil => exact h
  | cons seg rest ih =>
    rw [settle]
    refine ih ?_
    split
    · exact fun hmem => h (List.mem_of_mem_dropLast hmem)
    · next hne =>
      intro hmem
      obtain hin | hin := List.mem_append.mp hmem
      · exact h hin
      · exact hne (List.mem_singleton.mp hin).symm

/-- Where segments lead is a place with no `..` left. -/
theorem settle_settle (segs : List String) : settle [] (settle [] segs) = settle [] segs := by
  rw [settle_of_no_up (no_up_settle List.not_mem_nil), List.nil_append]

/-- What does not stay below leaves a directory whose name it does not hold. -/
theorem not_mem_settle {extra : List String} (hd : d ∉ segs) (hextra : d ∉ extra)
    (h : ¬BelowFrom extra.length segs) : d ∉ settle (d :: extra) segs := by
  induction segs generalizing extra with
  | nil => exact absurd trivial h
  | cons seg rest ih =>
    have hrest : d ∉ rest := fun hmem => hd (List.mem_cons_of_mem _ hmem)
    rw [settle]
    rw [BelowFrom] at h
    split at h
    · next hup =>
      rw [if_pos hup]
      cases extra with
      | nil =>
        intro hmem
        obtain hin | hin := mem_settle hmem
        · cases hin
        · exact hrest hin
      | cons x extra =>
        have hdrop : d ∉ (x :: extra).dropLast := fun hmem => hextra (List.mem_of_mem_dropLast hmem)
        rw [List.dropLast_cons_of_ne_nil (by simp)]
        refine ih hrest hdrop fun hbelow => h ⟨Nat.succ_pos _, ?_⟩
        rw [List.length_dropLast] at hbelow
        exact hbelow
    · next hdown =>
      rw [if_neg hdown, List.cons_append]
      refine ih hrest ?_ ?_
      · intro hmem
        obtain hin | hin := List.mem_append.mp hmem
        · exact hextra hin
        · rw [List.mem_singleton.mp hin] at hd
          exact hd List.mem_cons_self
      · rw [List.length_append, List.length_singleton]
        exact h

/-- There are names that a list does not hold. -/
theorem exists_fresh (names : List String) : ∃ d : String, d ∉ names := by
  have : Infinite String := Infinite.of_injective _ Decimal.toString_injective
  obtain ⟨d, hd⟩ := Infinite.exists_notMem_finset names.toFinset
  exact ⟨d, fun hmem => hd (List.mem_toFinset.mpr hmem)⟩

end Segments

end Paths

end Library
