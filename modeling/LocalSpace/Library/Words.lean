import Mathlib.Data.List.DropRight
import LocalSpace.Library.Decimal

/-!
# Texts by their words

Writing one separator for every run of letters that are not kept (`collapse`), and taking it off
at both ends, gives the text's words with one separator between them (`strip_collapse`). What is
written so says which words the text has, and nothing else (`strip_collapse_iff`).
-/

namespace Library

namespace Words

section Words

variable {α : Type*} (keep : α → Bool)

/-- The words of a text that goes on from a word. -/
@[grind =]
def wordsFrom : List α → List α → List (List α)
  | word, [] => if word = [] then [] else [word]
  | word, a :: as =>
    if keep a then wordsFrom (word ++ [a]) as
    else (if word = [] then [] else [word]) ++ wordsFrom [] as

/-- The words of a text: what is kept between what is not. -/
abbrev words : List α → List (List α) :=
  wordsFrom keep []

variable {keep} {text word w : List α}

theorem mem_wordsFrom (hword : ∀ a ∈ word, keep a = true) (h : w ∈ wordsFrom keep word text) :
    w ≠ [] ∧ ∀ a ∈ w, keep a = true := by
  induction text generalizing word with
  | nil =>
    rw [wordsFrom] at h
    split at h
    · cases h
    · next hne =>
      obtain rfl := List.mem_singleton.mp h
      exact ⟨hne, hword⟩
  | cons a as ih =>
    rw [wordsFrom] at h
    split at h
    · next ha =>
      refine ih (fun b hb => ?_) h
      obtain hb | hb := List.mem_append.mp hb
      · exact hword b hb
      · exact List.mem_singleton.mp hb ▸ ha
    · obtain h | h := List.mem_append.mp h
      · split at h
        · cases h
        · next hne =>
          obtain rfl := List.mem_singleton.mp h
          exact ⟨hne, hword⟩
      · exact ih (List.forall_mem_nil _) h

theorem mem_words (h : w ∈ words keep text) : w ≠ [] ∧ ∀ a ∈ w, keep a = true :=
  mem_wordsFrom (List.forall_mem_nil _) h

theorem intercalate_ne_nil {sep : List α} {ws : List (List α)} (hws : ws ≠ [])
    (hne : ∀ w ∈ ws, w ≠ []) :
    sep.intercalate ws ≠ [] := by
  obtain ⟨w, ws, rfl⟩ := List.exists_cons_of_ne_nil hws
  intro h
  cases ws with
  | nil =>
    rw [List.intercalate_singleton] at h
    exact hne w List.mem_cons_self h
  | cons w' ws =>
    rw [List.intercalate_cons_cons] at h
    exact hne w List.mem_cons_self (List.append_eq_nil_iff.mp (List.append_eq_nil_iff.mp h).1).1

end Words

section Collapse

variable {α : Type*} [DecidableEq α] (keep : α → Bool) (sep : α)

/-- What is kept of a text, one separator for each run of what is not. -/
@[grind =]
def collapse : Bool → List α → List α
  | _, [] => []
  | parted, a :: as =>
    if keep a then a :: collapse false as
    else if parted then collapse true as else sep :: collapse true as

/-- A text without the separators at its ends. -/
def strip (text : List α) : List α :=
  (text.dropWhile (· = sep)).rdropWhile (· = sep)

variable {keep sep} {text text' word : List α}

theorem rdropWhile_append {β : Type*} (p : β → Bool) (l l' : List β) :
    (l ++ l').rdropWhile p = if l'.rdropWhile p = [] then l.rdropWhile p
      else l ++ l'.rdropWhile p := by
  rw [List.rdropWhile, List.reverse_append, List.dropWhile_append]
  have hnil : (l'.reverse.dropWhile p).isEmpty = true ↔ l'.rdropWhile p = [] := by
    rw [List.isEmpty_iff, List.rdropWhile, List.reverse_eq_nil_iff]
  by_cases h : l'.rdropWhile p = []
  · rw [if_pos (hnil.mpr h), if_pos h]
    rfl
  · rw [if_neg (fun he => h (hnil.mp he)), if_neg h, List.reverse_append, List.reverse_reverse]
    rfl

/-- The induction behind `strip_collapse`: the text that is left goes on from a word, or from
between two. -/
theorem rdropWhile_collapse (hsep : keep sep = false) (hword : ∀ a ∈ word, keep a = true) :
    (word ++ collapse keep sep (word = []) text).rdropWhile (· = sep) =
      [sep].intercalate (wordsFrom keep word text) := by
  have hlast : ∀ v : List α, (∀ a ∈ v, keep a = true) → v.rdropWhile (· = sep) = v := by
    intro v hv
    refine List.rdropWhile_eq_self_iff.mpr fun hne heq => ?_
    have hkept := hv _ (List.getLast_mem hne)
    rw [of_decide_eq_true heq, hsep] at hkept
    cases hkept
  induction text generalizing word with
  | nil =>
    rw [collapse, List.append_nil, hlast word hword, wordsFrom]
    split
    · next h => rw [h, List.intercalate_nil]
    · rw [List.intercalate_singleton]
  | cons a as ih =>
    rw [collapse, wordsFrom]
    by_cases ha : keep a = true
    · rw [if_pos ha, if_pos ha]
      have hnext := @ih (word ++ [a]) fun b hb => by
        obtain hb | hb := List.mem_append.mp hb
        · exact hword b hb
        · exact List.mem_singleton.mp hb ▸ ha
      have hne : decide (word ++ [a] = []) = false := decide_eq_false (by simp)
      rw [hne, List.append_assoc, List.singleton_append] at hnext
      exact hnext
    · rw [if_neg ha, if_neg ha]
      have hrest := @ih [] nofun
      rw [decide_eq_true rfl, List.nil_append] at hrest
      by_cases hnil : word = []
      · rw [decide_eq_true hnil, if_pos rfl, if_pos hnil, hnil, List.nil_append, List.nil_append,
          hrest]
      · rw [decide_eq_false hnil, if_neg Bool.false_ne_true, if_neg hnil, List.singleton_append,
          rdropWhile_append, ← List.singleton_append, rdropWhile_append, hrest]
        have hsingle : [sep].rdropWhile (· = sep) = [] := by
          rw [List.rdropWhile_singleton, if_pos (decide_eq_true rfl)]
        by_cases hws : wordsFrom keep [] as = []
        · rw [hws, List.intercalate_nil, if_pos rfl, hsingle, if_pos rfl, hlast word hword,
            List.intercalate_singleton]
        · have hne : [sep].intercalate (wordsFrom keep [] as) ≠ [] :=
            intercalate_ne_nil hws fun w hw => (mem_words hw).1
          obtain ⟨w, ws, hcons⟩ := List.exists_cons_of_ne_nil hws
          rw [if_neg hne, if_neg (by simp), hcons, List.intercalate_cons_cons,
            List.singleton_append, List.append_assoc]
          rfl

/-- What is left when the separators at the ends are taken off: the words, one separator between
them. -/
theorem strip_collapse (hsep : keep sep = false) :
    strip sep (collapse keep sep false text) = [sep].intercalate (words keep text) := by
  have hdrop : (collapse keep sep false text).dropWhile (· = sep) =
      collapse keep sep true text := by
    have hhead : ∀ as : List α, (collapse keep sep true as).dropWhile (· = sep) =
        collapse keep sep true as := by
      intro as
      induction as with
      | nil => rfl
      | cons a as ih =>
        rw [collapse]
        by_cases ha : keep a = true
        · have hne : a ≠ sep := by
            rintro rfl
            rw [hsep] at ha
            cases ha
          rw [if_pos ha, List.dropWhile_cons_of_neg (by simpa using hne)]
        · rw [if_neg ha, if_pos rfl, ih]
    cases text with
    | nil => rfl
    | cons a as =>
      have htrue := hhead (a :: as)
      rw [collapse] at htrue ⊢
      by_cases ha : keep a = true
      · rw [if_pos ha] at htrue ⊢
        rw [htrue, collapse, if_pos ha]
      · rw [if_neg ha, if_neg Bool.false_ne_true, List.dropWhile_cons_of_pos (by simp),
          hhead as, collapse, if_neg ha, if_pos rfl]
  have hwords := @rdropWhile_collapse α _ keep sep text [] hsep nofun
  rw [decide_eq_true rfl, List.nil_append] at hwords
  rw [strip, hdrop, hwords]

/-- What is left is the text's, or a separator. -/
theorem mem_strip_collapse {a : α} (h : a ∈ strip sep (collapse keep sep false text)) :
    a ∈ text ∧ keep a = true ∨ a = sep := by
  have hfrom : ∀ (parted : Bool) (as : List α), a ∈ collapse keep sep parted as →
      a ∈ as ∧ keep a = true ∨ a = sep := by
    intro parted as
    induction as generalizing parted with
    | nil => exact nofun
    | cons b bs ih =>
      have hlater : a ∈ bs ∧ keep a = true ∨ a = sep → a ∈ b :: bs ∧ keep a = true ∨ a = sep :=
        fun h => h.imp_left fun h => ⟨List.mem_cons_of_mem _ h.1, h.2⟩
      intro h
      rw [collapse] at h
      split at h
      · next hb =>
        obtain rfl | h := List.mem_cons.mp h
        · exact .inl ⟨List.mem_cons_self, hb⟩
        · exact hlater (ih false h)
      · split at h
        · exact hlater (ih true h)
        · obtain rfl | h := List.mem_cons.mp h
          · exact .inr rfl
          · exact hlater (ih true h)
  exact hfrom false text (List.dropWhile_subset _ ((List.rdropWhile_prefix _ _).subset h))

theorem strip_collapse_eq_nil (hsep : keep sep = false) :
    strip sep (collapse keep sep false text) = [] ↔ words keep text = [] := by
  rw [strip_collapse hsep]
  refine ⟨fun h => by_contra fun hws => ?_, fun h => by rw [h, List.intercalate_nil]⟩
  exact intercalate_ne_nil hws (fun w hw => (mem_words hw).1) h

/-- Two texts are written alike exactly where they have the same words in the same order. -/
theorem strip_collapse_iff (hsep : keep sep = false) :
    strip sep (collapse keep sep false text) = strip sep (collapse keep sep false text') ↔
      words keep text = words keep text' := by
  refine ⟨fun h => ?_, fun h => by rw [strip_collapse hsep, strip_collapse hsep, h]⟩
  by_cases hnil : words keep text = []
  · rw [hnil]
    have hempty := (strip_collapse_eq_nil hsep).mpr hnil
    rw [h] at hempty
    exact ((strip_collapse_eq_nil hsep).mp hempty).symm
  · have hnil' : words keep text' ≠ [] := by
      intro hnil'
      have hempty := (strip_collapse_eq_nil hsep).mpr hnil'
      rw [← h] at hempty
      exact hnil ((strip_collapse_eq_nil hsep).mp hempty)
    have hnotin : ∀ text : List α, ∀ w ∈ words keep text, sep ∉ w := by
      intro text w hw hmem
      have hkept := (mem_words hw).2 sep hmem
      rw [hsep] at hkept
      cases hkept
    rw [strip_collapse hsep, strip_collapse hsep] at h
    rw [← List.splitOn_intercalate sep (hnotin text) hnil, h,
      List.splitOn_intercalate sep (hnotin text') hnil']

end Collapse

end Words

end Library
