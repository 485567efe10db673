import Mathlib.Data.List.TakeWhile
import LocalSpace.Library.Slices
import LocalSpace.Prompts

/-!
# The count, one character at a time

`prompt.rs`'s `Counted`, as it runs over a text: no character lowers it but a digit after spaces,
and what is counted apart counts no more together, where a text ends in a line break or the next
begins with one.
-/

namespace LocalSpace.Prompts

open Library

/-- The count after so much text. -/
@[grind =]
def countOf (isNumeric : Char → Bool) (text : List Char) : Counted :=
  text.foldl (Counted.add isNumeric) {}

theorem divCeil_mono {a b n : ℕ} (h : a ≤ b) : divCeil a n ≤ divCeil b n :=
  Nat.div_le_div_right (by omega)

theorem divCeil_four_add (a b : ℕ) : divCeil (a + b) 4 ≤ divCeil a 4 + divCeil b 4 := by
  simp only [divCeil]
  omega

namespace Counted

variable {isNumeric : Char → Bool} {s t : Counted} {c : Char} {d : ℕ} {text : List Char}

/-- What is read so far costs, by its pieces. -/
@[grind =]
def value (s : Counted) : ℕ :=
  s.done + s.cost

/-- What the piece before a digit costs. -/
@[grind =]
def beforeDigit (s : Counted) : ℕ :=
  if s.run = .spaces then
    if 1 < s.runChars then max (divCeil (s.runBytes - s.runLast) 20) 1 + s.runLast else s.runLast
  else s.cost

theorem add_digit (h : digitOf isNumeric c = some d) :
    s.add isNumeric c = ⟨s.done + s.beforeDigit + d, .none, 0, s.runLast, 0,
      s.allBytes + c.utf8Size⟩ := by
  rw [add, h]
  rfl

theorem add_joins (h : digitOf isNumeric c = none)
    (hjoins : runOf c = s.run ∨ (s.run = .spaces ∧ runOf c = .lines)) :
    s.add isNumeric c = ⟨s.done, runOf c, s.runBytes + c.utf8Size, c.utf8Size, s.runChars + 1,
      s.allBytes + c.utf8Size⟩ := by
  rw [add, h]
  dsimp only
  rw [if_pos hjoins]

theorem add_apart (h : digitOf isNumeric c = none)
    (hapart : ¬ (runOf c = s.run ∨ (s.run = .spaces ∧ runOf c = .lines))) :
    s.add isNumeric c = ⟨s.value, runOf c, c.utf8Size, c.utf8Size, 1,
      s.allBytes + c.utf8Size⟩ := by
  rw [add, h]
  dsimp only
  rw [if_neg hapart, Nat.zero_add, Nat.zero_add]
  rfl

theorem runOf_ne_none (c : Char) : runOf c ≠ .none := by
  simp only [runOf]
  split
  · nofun
  · split
    · nofun
    · split <;> nofun

theorem allBytes_add : (s.add isNumeric c).allBytes = s.allBytes + c.utf8Size := by
  rcases h : digitOf isNumeric c with _ | d
  · by_cases hjoins : runOf c = s.run ∨ (s.run = .spaces ∧ runOf c = .lines)
    · rw [add_joins h hjoins]
    · rw [add_apart h hjoins]
  · rw [add_digit h]

theorem allBytes_foldl (s : Counted) (text : List Char) :
    (text.foldl (add isNumeric) s).allBytes = s.allBytes + byteLength text := by
  induction text generalizing s with
  | nil => rfl
  | cons c rest ih => rw [List.foldl_cons, ih, allBytes_add, byteLength_cons, Nat.add_assoc]

/-- A longer piece of a kind costs no less, and no less where spaces end in a line break. -/
theorem cost_mono (hrun : t.run = s.run ∨ (s.run = .spaces ∧ t.run = .lines))
    (hbytes : s.runBytes ≤ t.runBytes) : s.cost ≤ t.cost := by
  rcases hrun with hrun | ⟨hs, ht⟩
  · simp only [cost, hrun]
    have hword := divCeil_mono (n := 4) hbytes
    have hspaces := divCeil_mono (n := 4) (Nat.sub_le_sub_right hbytes 1)
    split <;> omega
  · simp only [cost, hs, ht]
    have hspaces := divCeil_mono (n := 4) (Nat.sub_le_sub_right hbytes 1)
    omega

/-- No character lowers the count, but a digit after spaces. -/
theorem value_le_add (h : digitOf isNumeric c = none ∨ s.run ≠ .spaces) :
    s.value ≤ (s.add isNumeric c).value := by
  rcases hdigit : digitOf isNumeric c with _ | d
  · by_cases hjoins : runOf c = s.run ∨ (s.run = .spaces ∧ runOf c = .lines)
    · rw [add_joins hdigit hjoins]
      exact Nat.add_le_add_left (cost_mono hjoins (Nat.le_add_right _ _)) _
    · rw [add_apart hdigit hjoins]
      exact Nat.le_add_right _ _
  · have hspaces : s.run ≠ .spaces := h.resolve_left (by simp [hdigit])
    rw [add_digit hdigit, beforeDigit, if_neg hspaces]
    simp only [value]
    omega

theorem tokens_le_add (h : digitOf isNumeric c = none ∨ s.run ≠ .spaces) :
    s.tokens ≤ (s.add isNumeric c).tokens := by
  have hvalue := value_le_add h
  have hbytes : divCeil s.allBytes 4 ≤ divCeil (s.add isNumeric c).allBytes 4 := by
    rw [allBytes_add]
    exact divCeil_mono (Nat.le_add_right _ _)
  simp only [value] at hvalue
  simp only [tokens]
  omega

/-- What is counted last is of the run the count is in, where it is in one. -/
theorem run_add (h : (s.add isNumeric c).run ≠ .none) : (s.add isNumeric c).run = runOf c := by
  rcases hdigit : digitOf isNumeric c with _ | d
  · by_cases hjoins : runOf c = s.run ∨ (s.run = .spaces ∧ runOf c = .lines)
    · rw [add_joins hdigit hjoins]
    · rw [add_apart hdigit hjoins]
  · rw [add_digit hdigit] at h
    exact absurd rfl h

/-! ### What is counted apart -/

/-- Counts that are alike but for what is done. -/
structure Alike (s t : Counted) : Prop where
  run : s.run = t.run
  bytes : s.runBytes = t.runBytes
  chars : s.runChars = t.runChars
  last : s.run = .none ∨ s.runLast = t.runLast

theorem Alike.cost (h : Alike s t) : s.cost = t.cost := by
  rw [Counted.cost, Counted.cost, h.run, h.bytes]

theorem Alike.beforeDigit (h : Alike s t) : s.beforeDigit = t.beforeDigit := by
  rw [Counted.beforeDigit, Counted.beforeDigit, h.cost, h.run, h.bytes, h.chars]
  rcases h.last with hnone | hlast
  · rw [h.run] at hnone
    rw [hnone, if_neg nofun, if_neg nofun]
  · rw [hlast]

/-- Alike counts go on alike. -/
theorem Alike.add (h : Alike s t) (isNumeric : Char → Bool) (c : Char) :
    Alike (s.add isNumeric c) (t.add isNumeric c) ∧
      (s.add isNumeric c).done + t.done = (t.add isNumeric c).done + s.done := by
  rcases hdigit : digitOf isNumeric c with _ | d
  · by_cases hjoins : runOf c = s.run ∨ (s.run = .spaces ∧ runOf c = .lines)
    · rw [add_joins hdigit hjoins, add_joins hdigit (h.run ▸ hjoins), h.bytes, h.chars]
      exact ⟨⟨rfl, rfl, rfl, .inr rfl⟩, Nat.add_comm _ _⟩
    · rw [add_apart hdigit hjoins, add_apart hdigit (h.run ▸ hjoins)]
      refine ⟨⟨rfl, rfl, rfl, .inr rfl⟩, ?_⟩
      have hcost := h.cost
      simp only [value]
      omega
  · rw [add_digit hdigit, add_digit hdigit, h.beforeDigit]
    refine ⟨⟨rfl, rfl, rfl, .inl rfl⟩, ?_⟩
    dsimp only
    omega

theorem Alike.value_foldl (h : Alike s t) (isNumeric : Char → Bool) (text : List Char) :
    (text.foldl (Counted.add isNumeric) s).value + t.done =
      (text.foldl (Counted.add isNumeric) t).value + s.done := by
  induction text generalizing s t with
  | nil =>
    have hcost := h.cost
    simp only [List.foldl_nil, value]
    omega
  | cons c rest ih =>
    obtain ⟨halike, hdone⟩ := h.add isNumeric c
    have hrest := ih halike
    simp only [List.foldl_cons]
    omega

/-- A character that begins a piece whatever came before it. -/
def Begins (isNumeric : Char → Bool) (s : Counted) (c : Char) : Prop :=
  s.run ≠ .spaces ∧ ((digitOf isNumeric c).isSome ∨ runOf c ≠ s.run)

/-- From where a piece begins, the rest counts the same whatever came before. -/
theorem Begins.value_foldl (hs : Begins isNumeric s c) (ht : Begins isNumeric t c) :
    ((c :: text).foldl (add isNumeric) s).value + t.value =
      ((c :: text).foldl (add isNumeric) t).value + s.value := by
  obtain ⟨halike, hdone⟩ : Alike (s.add isNumeric c) (t.add isNumeric c) ∧
      (s.add isNumeric c).done + t.value = (t.add isNumeric c).done + s.value := by
    rcases hdigit : digitOf isNumeric c with _ | d
    · have hapart : ∀ {u : Counted}, Begins isNumeric u c →
          ¬ (runOf c = u.run ∨ (u.run = .spaces ∧ runOf c = .lines)) := by
        rintro u ⟨hspaces, hbegins⟩ (hjoins | ⟨hjoins, -⟩)
        · rw [hdigit] at hbegins
          exact hbegins.elim Bool.false_ne_true (· hjoins)
        · exact hspaces hjoins
      rw [add_apart hdigit (hapart hs), add_apart hdigit (hapart ht)]
      exact ⟨⟨rfl, rfl, rfl, .inr rfl⟩, Nat.add_comm _ _⟩
    · rw [add_digit hdigit, add_digit hdigit, beforeDigit, beforeDigit, if_neg hs.1, if_neg ht.1]
      refine ⟨⟨rfl, rfl, rfl, .inl rfl⟩, ?_⟩
      simp only [value]
      omega
  have hrest := halike.value_foldl isNumeric text
  simp only [List.foldl_cons]
  omega

/-! ### Line breaks -/

/-- `char::is_numeric`, on ASCII. -/
def AsciiDigits (isNumeric : Char → Bool) : Prop :=
  ∀ c : Char, c.toNat < 128 → isNumeric c = c.isDigit

theorem digitOf_ascii (hascii : AsciiDigits isNumeric) (hc : c.toNat < 128)
    (hdigit : c.isDigit = false) : digitOf isNumeric c = none := by
  have hne : ¬ (c.isDigit = true ∨ c.toNat = 0x02BB ∨ c.toNat = 0x02BC) := by
    rintro (h | h | h)
    · rw [hdigit] at h
      cases h
    · omega
    · omega
  rw [digitOf, if_neg hne, hascii c hc, hdigit, if_neg Bool.false_ne_true]

/-- A line break costs one at most, and so do two. -/
theorem lines_value (hascii : AsciiDigits isNumeric) (s : Counted) {lines : List Char}
    (hlines : lines = ['\n'] ∨ lines = ['\n', '\n']) :
    (lines.foldl (add isNumeric) s).run = .lines ∧
      (lines.foldl (add isNumeric) s).value ≤ s.value + 1 := by
  have hdigit : digitOf isNumeric '\n' = none := digitOf_ascii hascii (by decide) rfl
  have hrun : runOf '\n' = .lines := rfl
  have hsize : ('\n' : Char).utf8Size = 1 := rfl
  -- the first of them: the bytes of the piece it is in, and what is done before
  obtain ⟨first, hfirst, hfirstrun, hfirstvalue⟩ : ∃ first, s.add isNumeric '\n' = first ∧
      first.run = .lines ∧
        first.done + max (divCeil first.runBytes 4) 1 ≤ s.value + 1 := by
    refine ⟨_, rfl, ?_⟩
    by_cases hjoins : runOf '\n' = s.run ∨ (s.run = .spaces ∧ runOf '\n' = .lines)
    · rw [add_joins hdigit hjoins]
      refine ⟨rfl, ?_⟩
      simp only [value, cost, divCeil, hsize]
      rcases hjoins with hsame | ⟨hspaces, -⟩
      · rw [← hsame, hrun]
        dsimp only
        omega
      · rw [hspaces]
        dsimp only
        omega
    · rw [add_apart hdigit hjoins]
      refine ⟨rfl, ?_⟩
      simp only [divCeil, hsize]
      omega
  rcases hlines with rfl | rfl
  · simp only [List.foldl_cons, List.foldl_nil, hfirst]
    refine ⟨hfirstrun, ?_⟩
    simp only [value, cost, divCeil, hfirstrun] at hfirstvalue ⊢
    omega
  · simp only [List.foldl_cons, List.foldl_nil, hfirst]
    rw [add_joins hdigit (.inl (hrun.trans hfirstrun.symm))]
    refine ⟨rfl, ?_⟩
    simp only [value, cost, divCeil, hrun, hsize] at hfirstvalue ⊢
    omega

/-- What begins with a line break or two, and goes on with a mark, adds no more than it counts. -/
theorem value_before_lines (hascii : AsciiDigits isNumeric) (s : Counted) {lines : List Char}
    (hlines : lines = ['\n'] ∨ lines = ['\n', '\n']) (text : List Char) :
    ((lines ++ '-' :: text).foldl (add isNumeric) s).value ≤
      s.value + (countOf isNumeric (lines ++ '-' :: text)).value := by
  obtain ⟨hrun, hvalue⟩ := lines_value hascii s hlines
  obtain ⟨hrun', -⟩ := lines_value hascii {} hlines
  have hbegins : ∀ u : Counted, u.run = .lines → Begins isNumeric u '-' := by
    intro u hu
    refine ⟨by rw [hu]; nofun, .inr ?_⟩
    rw [hu]
    decide
  have hone : 1 ≤ (lines.foldl (add isNumeric) {}).value := by
    simp only [value, cost, hrun']
    omega
  have hrest := @Begins.value_foldl isNumeric _ _ '-' text (hbegins _ hrun) (hbegins _ hrun')
  rw [countOf, List.foldl_append, List.foldl_append]
  omega

theorem digitOf_lines_foldl {text : List Char} (hrun : s.run = .lines)
    (h : ∀ c ∈ text, digitOf isNumeric c = none ∧ runOf c = .lines) :
    (text.foldl (add isNumeric) s).run = .lines ∧
      (text.foldl (add isNumeric) s).done = s.done ∧
      (text.foldl (add isNumeric) s).runBytes = s.runBytes + byteLength text := by
  induction text generalizing s with
  | nil => exact ⟨hrun, rfl, rfl⟩
  | cons c rest ih =>
    obtain ⟨hdigit, hc⟩ := h c List.mem_cons_self
    rw [List.foldl_cons, add_joins hdigit (.inl (hc.trans hrun.symm))]
    obtain ⟨hrun', hdone, hbytes⟩ :=
      @ih ⟨s.done, runOf c, s.runBytes + c.utf8Size, c.utf8Size, s.runChars + 1,
        s.allBytes + c.utf8Size⟩ hc fun x hx => h x (List.mem_cons_of_mem _ hx)
    refine ⟨hrun', hdone, ?_⟩
    rw [hbytes, byteLength_cons, Nat.add_assoc]

/-- After a line break of its own, anything adds no more than it counts. -/
theorem value_after_line (hrun : s.run = .lines) (hbytes : s.runBytes = 1) (text : List Char) :
    (text.foldl (add isNumeric) s).value ≤ s.value + (countOf isNumeric text).value := by
  obtain ⟨lines, rest, rfl, hlines, hrest⟩ : ∃ lines rest, text = lines ++ rest ∧
      (∀ c ∈ lines, digitOf isNumeric c = none ∧ runOf c = .lines) ∧
        ∀ c rest', rest = c :: rest' → (digitOf isNumeric c).isSome ∨ runOf c ≠ .lines := by
    let isLine : Char → Bool := fun c => digitOf isNumeric c = none ∧ runOf c = .lines
    refine ⟨text.takeWhile isLine, text.dropWhile isLine, List.takeWhile_append_dropWhile.symm,
      fun c hc => ?_, fun c rest' hrest => ?_⟩
    · simpa [isLine] using List.mem_takeWhile_imp hc
    · have hnot := List.head_dropWhile_not isLine (l := text) (by rw [hrest]; nofun)
      simp only [hrest, List.head_cons, isLine, decide_eq_false_iff_not, not_and_or] at hnot
      exact hnot.imp_left Option.ne_none_iff_isSome.mp
  -- what follows the line breaks counts the same after them, whatever came before
  have hafter : ∀ u v : Counted, u.run = .lines → v.run = .lines ∨ v.run = .none →
      (rest.foldl (add isNumeric) u).value + v.value =
        (rest.foldl (add isNumeric) v).value + u.value := by
    intro u v hu hv
    rcases rest with _ | ⟨c, rest⟩
    · exact Nat.add_comm _ _
    · have hc := hrest c rest rfl
      have hvspaces : v.run ≠ .spaces := by
        rcases hv with hv | hv <;> rw [hv] <;> nofun
      refine Begins.value_foldl ⟨by rw [hu]; nofun, hu ▸ hc⟩ ⟨hvspaces, ?_⟩
      rcases hv with hv | hv
      · exact hv ▸ hc
      · exact .inr (hv ▸ runOf_ne_none c)
  rw [countOf, List.foldl_append, List.foldl_append]
  rcases lines with _ | ⟨c, lines⟩
  · have h := hafter s {} hrun (.inr rfl)
    have hempty : ({} : Counted).value = 0 := rfl
    simp only [List.foldl_nil]
    omega
  · obtain ⟨hdigit, hc⟩ := hlines c List.mem_cons_self
    obtain ⟨hs, hdone, hbytes'⟩ := digitOf_lines_foldl hrun hlines
    have hfirst : ({} : Counted).add isNumeric c = ⟨0, runOf c, c.utf8Size, c.utf8Size, 1,
        0 + c.utf8Size⟩ := add_apart hdigit (by rw [hc]; nofun)
    obtain ⟨hfresh, hfreshdone, hfreshbytes⟩ :=
      @digitOf_lines_foldl isNumeric ⟨0, runOf c, c.utf8Size, c.utf8Size, 1, 0 + c.utf8Size⟩ lines
        hc fun x hx => hlines x (List.mem_cons_of_mem _ hx)
    have hnone : (({} : Counted).add isNumeric c).done = 0 := by rw [hfirst]
    have hsize : (({} : Counted).add isNumeric c).runBytes = c.utf8Size := by rw [hfirst]
    rw [← hfirst, ← List.foldl_cons] at hfresh hfreshdone hfreshbytes
    have h := hafter _ _ hs (.inl hfresh)
    have hpos := Char.utf8Size_pos c
    have hvalue : ((c :: lines).foldl (add isNumeric) s).value ≤
        s.value + ((c :: lines).foldl (add isNumeric) {}).value := by
      simp only [value, cost, hs, hfresh, hrun, hdone, hfreshdone, hbytes', hfreshbytes, hbytes,
        hnone, hsize, byteLength_cons, divCeil]
      omega
    omega

end Counted

end LocalSpace.Prompts
