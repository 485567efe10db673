import Mathlib.Algebra.BigOperators.Group.List.Basic
import Mathlib.Algebra.Order.Ring.Int
import Mathlib.Data.List.Basic

/-!
# The Z-function

For each place of a word, how far the word read from there matches the word read from its start
(`zFunction`). The table is filled from the left under a window, the match that reaches furthest so
far, which says what a place in it matches at least. How often a word begins with one stretch after
itself is read off the table (`runs_iff`).
-/

namespace Library

namespace ZFunction

variable {α : Type*} {s : List α} {i k m p : ℕ}

/-- Read from `i`, the word matches its start for so many places. -/
def Matches (s : List α) (i k : ℕ) : Prop :=
  i + k ≤ s.length ∧ ∀ j < k, s[j]? = s[i + j]?

/-- Read from `i`, the word matches its start for so many places and no more. -/
def Longest (s : List α) (i k : ℕ) : Prop :=
  Matches s i k ∧ ¬Matches s i (k + 1)

/-- A match made as long as it can be. -/
def extend [DecidableEq α] (s : List α) (i k : ℕ) : ℕ :=
  if i + k < s.length ∧ s[k]? = s[i + k]? then extend s i (k + 1) else k
termination_by s.length - (i + k)

/-- The table as far as it is filled, and the window. -/
structure State where
  z : List ℕ
  l : ℕ
  r : ℕ

@[grind =]
def step [DecidableEq α] (s : List α) (state : State) (i : ℕ) : State :=
  let known := if i < state.r then min (state.r - i) (state.z.getD (i - state.l) 0) else 0
  let k := extend s i known
  let z := state.z.set i k
  if state.r < i + k then ⟨z, i, i + k⟩ else ⟨z, state.l, state.r⟩

def zFunction [DecidableEq α] (s : List α) : List ℕ :=
  let n := s.length
  let state := (List.range' 1 (n - 1)).foldl (step s) ⟨List.replicate n 0, 0, 0⟩
  if 0 < n then state.z.set 0 n else state.z

/-! ### The table -/

theorem Matches.mono (h : Matches s i k) (hm : m ≤ k) : Matches s i m := by
  refine ⟨?_, fun j hj => h.2 j (by omega)⟩
  have := h.1
  omega

theorem Longest.matches_iff (h : Longest s i k) : Matches s i m ↔ m ≤ k := by
  constructor
  · intro hm
    by_contra hlt
    exact h.2 (hm.mono (by omega))
  · exact h.1.mono

theorem extend_longest [DecidableEq α] (h : Matches s i k) : Longest s i (extend s i k) := by
  induction k using extend.induct s i with
  | case1 k hmore ih =>
    rw [extend, if_pos hmore]
    refine ih ⟨by omega, fun j hj => ?_⟩
    rcases Nat.lt_succ_iff_lt_or_eq.mp hj with hj | rfl
    · exact h.2 j hj
    · exact hmore.2
  | case2 k hmore =>
    rw [extend, if_neg hmore]
    refine ⟨h, fun hnext => hmore ⟨?_, hnext.2 k (Nat.lt_succ_self k)⟩⟩
    have := hnext.1
    omega

/-- The table is right before `i`, and the window is a match from before `i`. -/
structure Filled (s : List α) (i : ℕ) (state : State) : Prop where
  length : state.z.length = s.length
  longest : ∀ j, 0 < j → j < i → Longest s j (state.z.getD j 0)
  r_le : state.r ≤ s.length
  l_lt : 0 < state.r → 0 < state.l ∧ state.l < i
  window : Matches s state.l (state.r - state.l)

variable {state : State}

/-- In the window, a place matches what its place in the window's copy does, as far as the window
reaches. -/
theorem Filled.matches_known (h : Filled s i state) (hi : i < s.length) :
    Matches s i (if i < state.r then min (state.r - i) (state.z.getD (i - state.l) 0) else 0) := by
  split_ifs with hr
  · -- the start matches what stands in the copy, and the copy what stands here
    obtain ⟨hl, hli⟩ := h.l_lt (by omega)
    have hcopy := (h.longest (i - state.l) (by omega) (by omega)).1
    have hr' := h.r_le
    refine ⟨by omega, fun j hj => ?_⟩
    have hwindow := h.window.2 (i - state.l + j) (by omega)
    rw [show state.l + (i - state.l + j) = i + j by omega] at hwindow
    exact (hcopy.2 j (by omega)).trans hwindow
  · exact ⟨by omega, fun j hj => absurd hj (Nat.not_lt_zero j)⟩

theorem Filled.step [DecidableEq α] (h : Filled s i state) (hpos : 0 < i)
    (hi : i < s.length) : Filled s (i + 1) (step s state i) := by
  have hlongest := extend_longest (h.matches_known hi)
  simp only [ZFunction.step]
  generalize extend s i _ = k at hlongest ⊢
  have hlength : (state.z.set i k).length = s.length := by
    rw [List.length_set, h.length]
  have htable : ∀ j, 0 < j → j < i + 1 → Longest s j ((state.z.set i k).getD j 0) := by
    intro j hj hlt
    rcases Nat.lt_succ_iff_lt_or_eq.mp hlt with hlt | rfl
    · have := h.longest j hj hlt
      rwa [List.getD_eq_getElem?_getD, List.getElem?_set_ne (by omega),
        ← List.getD_eq_getElem?_getD]
    · rwa [List.getD_eq_getElem?_getD, List.getElem?_set_self (by rw [h.length]; exact hi)]
  have hend := hlongest.1.1
  split_ifs with hr
  · -- this match reaches further, and is the window from here on
    refine ⟨hlength, htable, hend, fun _ => ⟨hpos, Nat.lt_succ_self i⟩, ?_⟩
    simpa using hlongest.1
  · refine ⟨hlength, htable, h.r_le, fun hpos => ?_, h.window⟩
    obtain ⟨hl, hlt⟩ := h.l_lt hpos
    exact ⟨hl, Nat.lt_succ_of_lt hlt⟩

theorem Filled.steps [DecidableEq α] (h : Filled s i state) (hpos : 0 < i) {count : ℕ}
    (hi : i + count ≤ s.length) :
    Filled s (i + count) ((List.range' i count).foldl (ZFunction.step s) state) := by
  induction count generalizing i state with
  | zero => exact h
  | succ count ih =>
    rw [List.range'_succ, List.foldl_cons]
    have := ih (h.step hpos (by omega)) (by omega) (by omega)
    rwa [show i + (count + 1) = i + 1 + count by omega]

theorem longest_zFunction [DecidableEq α] (hpos : 0 < i) (hi : i < s.length) :
    Longest s i ((zFunction s).getD i 0) := by
  have hstart : Filled s 1 ⟨List.replicate s.length 0, 0, 0⟩ :=
    ⟨by simp, fun j _ _ => by omega, by simp, by simp, ⟨by simp, by simp⟩⟩
  have hall : Filled s (1 + (s.length - 1)) _ := hstart.steps (by omega) (by omega)
  simp only [zFunction]
  rw [if_pos (by omega), List.getD_eq_getElem?_getD, List.getElem?_set_ne (by omega),
    ← List.getD_eq_getElem?_getD]
  exact hall.longest i hpos (by omega)

/-! ### Runs -/

theorem matches_iff_take : Matches s i k ↔ i + k ≤ s.length ∧ (s.drop i).take k = s.take k := by
  refine and_congr_right fun hle => ⟨fun h => ?_, fun h j hj => ?_⟩
  · refine List.ext_getElem? fun j => ?_
    rw [List.getElem?_take, List.getElem?_take]
    split_ifs with hj
    · rw [List.getElem?_drop, h j hj]
    · rfl
  · have hget := congrArg (fun l : List α => l[j]?) h
    simp only [List.getElem?_take, if_pos hj, List.getElem?_drop] at hget
    exact hget.symm

/-- A word that matches itself from `p` on for some times `p` begins with its first `p` places,
said once more than that. -/
theorem Matches.flatten (h : Matches s p (m * p)) :
    (List.replicate (m + 1) (s.take p)).flatten = s.take ((m + 1) * p) := by
  induction m with
  | zero => simp
  | succ m ih =>
    have hle : m * p ≤ (m + 1) * p := Nat.mul_le_mul_right p (by omega)
    rw [List.replicate_succ, List.flatten_cons, ih (h.mono hle), ← (matches_iff_take.mp h).2,
      ← List.take_add, Nat.add_comm p, ← Nat.succ_mul]

theorem matches_of_flatten (hp : p ≤ s.length)
    (h : (List.replicate (m + 1) (s.take p)).flatten <+: s) : Matches s p (m * p) := by
  obtain ⟨rest, hrest⟩ := h
  have hlength : (s.take p).length = p := by
    rw [List.length_take]
    omega
  have htimes : ∀ n, (List.replicate n (s.take p)).flatten.length = n * p := by
    intro n
    rw [List.length_flatten, List.map_replicate, hlength, List.sum_replicate_nat]
  have hs : s.drop p = (List.replicate m (s.take p)).flatten ++ rest := by
    conv_lhs => rw [← hrest]
    rw [List.replicate_succ, List.flatten_cons, List.append_assoc, List.drop_left' hlength]
  have htotal := congrArg List.length hrest
  rw [List.length_append, htimes, Nat.succ_mul] at htotal
  refine matches_iff_take.mpr ⟨by omega, ?_⟩
  rw [hs, List.take_left' (htimes m)]
  conv_rhs => rw [← hrest]
  rw [List.replicate_succ', List.flatten_append, List.append_assoc, List.take_left' (htimes m)]

/-- How often a word begins with its first `p` places, after one another, is read off the table. -/
theorem runs_iff [DecidableEq α] (hpos : 0 < p) (hp : p < s.length) :
    (List.replicate (m + 1) (s.take p)).flatten <+: s ↔ m ≤ (zFunction s).getD p 0 / p := by
  rw [Nat.le_div_iff_mul_le hpos, ← (longest_zFunction hpos hp).matches_iff]
  constructor
  · exact matches_of_flatten (Nat.le_of_lt hp)
  · intro h
    rw [h.flatten]
    exact List.take_prefix _ _

end ZFunction

end Library
