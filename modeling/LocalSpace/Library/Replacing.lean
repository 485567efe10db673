import Mathlib.Algebra.BigOperators.Group.List.Basic
import Mathlib.Algebra.Order.Ring.Int
import Mathlib.Data.List.Infix

/-!
# Replacing one text by another

Every occurrence of a pattern, from the left and without overlaps, is replaced by another text.
Where the pattern begins with a letter that it has nowhere else, an occurrence can begin only where
that letter stands. Lean's own replacement in a string is this one, of its letters.
-/

namespace Library

variable {α : Type} [DecidableEq α]

/-- The first `k` letters are of an occurrence that was replaced already. -/
@[grind =]
def replaceFrom (pattern new : List α) : ℕ → List α → List α
  | _, [] => []
  | k + 1, _ :: l => replaceFrom pattern new k l
  | 0, x :: l =>
    if pattern.isPrefixOf (x :: l) then new ++ replaceFrom pattern new (pattern.length - 1) l
    else x :: replaceFrom pattern new 0 l

/-- Every occurrence of a pattern is replaced. -/
def replaceAll (pattern new l : List α) : List α :=
  replaceFrom pattern new 0 l

variable {pattern new l l' : List α} {x y : α}

theorem replaceFrom_drop (pattern new : List α) (k : ℕ) (l : List α) :
    replaceFrom pattern new k l = replaceFrom pattern new 0 (l.drop k) := by
  induction l generalizing k with
  | nil => cases k <;> simp [replaceFrom]
  | cons x l ih =>
    cases k with
    | zero => rfl
    | succ k => rw [replaceFrom, ih, List.drop_succ_cons]

@[simp]
theorem replaceAll_nil : replaceAll pattern new [] = [] := by
  simp [replaceAll, replaceFrom]

/-- A letter at which no occurrence begins stays. -/
theorem replaceAll_cons (h : ¬pattern <+: x :: l) :
    replaceAll pattern new (x :: l) = x :: replaceAll pattern new l :=
  if_neg fun hbegins => h (List.isPrefixOf_iff_prefix.mp hbegins)

/-- An occurrence is replaced. -/
theorem replaceAll_pattern_append (hne : pattern ≠ []) :
    replaceAll pattern new (pattern ++ l) = new ++ replaceAll pattern new l := by
  obtain ⟨x, tail, rfl⟩ := List.exists_cons_of_ne_nil hne
  have hbegins : (x :: tail).isPrefixOf (x :: (tail ++ l)) = true :=
    List.isPrefixOf_iff_prefix.mpr (List.prefix_append _ l)
  rw [replaceAll, List.cons_append, replaceFrom, if_pos hbegins, replaceFrom_drop]
  simp [replaceAll]

/-- A pattern's first letter is where its occurrences begin. -/
theorem replaceAll_cons_of_ne (h : y ≠ x) :
    replaceAll (x :: pattern) new (y :: l) = y :: replaceAll (x :: pattern) new l :=
  replaceAll_cons fun hbegins => h (List.cons_prefix_cons.mp hbegins).1.symm

/-- What does not have the pattern's first letter stays. -/
theorem replaceAll_append_of_notMem (h : x ∉ l) :
    replaceAll (x :: pattern) new (l ++ l') = l ++ replaceAll (x :: pattern) new l' := by
  induction l with
  | nil => rfl
  | cons y l ih =>
    rw [List.mem_cons, not_or] at h
    rw [List.cons_append, replaceAll_cons_of_ne (Ne.symm h.1), ih h.2, List.cons_append]

/-- One letter is replaced wherever it stands. -/
theorem replaceAll_singleton (x : α) (new l : List α) :
    replaceAll [x] new l = l.flatMap fun y => if y = x then new else [y] := by
  induction l with
  | nil => simp
  | cons y l ih =>
    by_cases h : y = x
    · have hpattern : replaceAll [x] new ([x] ++ l) = new ++ replaceAll [x] new l :=
        replaceAll_pattern_append (List.cons_ne_nil x [])
      rw [List.singleton_append] at hpattern
      simp [h, hpattern, ih]
    · simp [replaceAll_cons_of_ne h, ih, h]

/-- Letters at which no occurrence begins stay. -/
theorem replaceAll_append_of_no {l l' : List α}
    (h : ∀ before after, l = before ++ after → after ≠ [] → ¬pattern <+: after ++ l') :
    replaceAll pattern new (l ++ l') = l ++ replaceAll pattern new l' := by
  induction l with
  | nil => rfl
  | cons x l ih =>
    have hfirst : ¬pattern <+: x :: (l ++ l') := h [] (x :: l) rfl (List.cons_ne_nil x l)
    rw [List.cons_append, replaceAll_cons hfirst, ih, List.cons_append]
    intro before after hl
    exact h (x :: before) after (congrArg (x :: ·) hl)

/-! ### Strings -/

section Strings

open String String.Slice String.Slice.Pattern String.Slice.Pattern.Model

variable {pat new : String}

/-- What one step of a search adds to what is replaced so far. -/
def replaceStep {s : Slice} (new : String) (sofar : String) : SearchStep s → String
  | .matched _ _ => sofar ++ new.toSlice
  | .rejected start stop => sofar ++ s.slice! start stop

/-- No occurrence begins between two positions where none is found. -/
theorem not_prefix_between {s : Slice} {start stop : s.Pos} {t₁ v u : String}
    (hstart : start.Splits t₁ (v ++ u)) (hstop : stop.Splits (t₁ ++ v) u)
    (hno : ∀ pos, start ≤ pos → pos < stop → ¬MatchesAt pat pos) {before after : List Char}
    (hv : v.toList = before ++ after) (hafter : after ≠ []) :
    ¬pat.toList <+: after ++ u.toList := by
  rintro ⟨rest, hrest⟩
  have hv' : v = String.ofList before ++ String.ofList after := by
    rw [← String.ofList_append, ← hv, String.ofList_toList]
  have hcopy : s.copy = t₁ ++ String.ofList before ++ (String.ofList after ++ u) := by
    rw [hstart.eq_append, hv']
    simp only [String.append_assoc]
  have hvalid : (t₁ ++ String.ofList before).rawEndPos.IsValidForSlice s :=
    Pos.Raw.isValidForSlice_iff_exists_append.mpr ⟨_, _, hcopy, rfl⟩
  have hsplits : (s.pos _ hvalid).Splits (t₁ ++ String.ofList before)
      (String.ofList after ++ u) := ⟨hcopy, by simp⟩
  refine hno (s.pos _ hvalid) ?_ ?_ ?_
  · rw [hstart.le_iff_exists_eq_append hsplits]
    exact ⟨String.ofList before, rfl, by rw [hv', String.append_assoc]⟩
  · rw [hsplits.lt_iff_exists_eq_append hstop]
    refine ⟨String.ofList after, ?_, by rw [hv', String.append_assoc], rfl⟩
    simpa using hafter
  · rw [ForwardStringSearcher.matchesAt_iff_splits]
    have heq : String.ofList after ++ u = pat ++ String.ofList rest := by
      rw [← String.toList_inj]
      simp [hrest]
    exact ⟨_, String.ofList rest, heq ▸ hsplits⟩

theorem foldl_replaceStep {s : Slice} {pos : s.Pos} {steps : List (SearchStep s)}
    (hpat : pat ≠ "") (hvalid : IsValidSearchFrom pat pos steps) {t₁ t₂ : String}
    (hsplits : pos.Splits t₁ t₂) (sofar : String) :
    (steps.foldl (replaceStep new) sofar).toList =
      sofar.toList ++ replaceAll pat.toList new.toList t₂.toList := by
  induction hvalid generalizing t₁ t₂ sofar with
  | endPos =>
    obtain ⟨-, rfl⟩ := Slice.splits_endPos_iff.mp hsplits
    simp
  | matched hmatch _ ih =>
    obtain ⟨u₁, u₂, hstart, hstop⟩ :=
      ForwardStringSearcher.isLongestMatchAt_iff_splits.mp hmatch
    obtain ⟨-, rfl⟩ := hsplits.eq hstart
    have hne : pat.toList ≠ [] := by simpa using hpat
    rw [List.foldl_cons, ih hstop, replaceStep, String.appendSlice_eq, String.toList_append,
      String.copy_toSlice, String.toList_append, replaceAll_pattern_append hne,
      List.append_assoc]
  | @mismatched _ start stop hlt hno _ ih =>
    obtain ⟨w₁, w₂, hw₁, hw₂⟩ := Slice.copy_slice_eq_iff_splits.mp ⟨Std.le_of_lt hlt, rfl⟩
    obtain ⟨rfl, rfl⟩ := hsplits.eq hw₁
    rw [List.foldl_cons, ih hw₂, replaceStep, String.appendSlice_eq, String.toList_append,
      ← Slice.slice_eq_slice!, String.toList_append, replaceAll_append_of_no, List.append_assoc]
    exact fun before after hv hafter => not_prefix_between hw₁ hw₂ hno hv hafter

/-- `String.replace`, letter by letter. -/
theorem toList_replace (s : String) (hpat : pat ≠ "") :
    (s.replace pat new).toList = replaceAll pat.toList new.toList s.toList := by
  have hlawful := ForwardStringSearcher.lawfulToForwardSearcherModel hpat
  have hsearch := hlawful.isValidSearchFrom_toList s.toSlice
  have hfold := @foldl_replaceStep _ new _ _ _ hpat hsearch _ _ (Slice.splits_startPos _) ""
  rw [String.copy_toSlice, String.toList_empty, List.nil_append] at hfold
  rw [← hfold, String.replace, String.Slice.replace, ← Std.Iter.foldl_toList]
  congr 2
  funext sofar step
  rcases step with _ | _ <;> rfl

end Strings

end Library
