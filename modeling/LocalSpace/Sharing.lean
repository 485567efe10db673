import Mathlib.Data.List.FinRange
import Mathlib.Logic.Equiv.Defs
import LocalSpace.Library.Dealing

/-!
# Files share

`text_file.rs`: what each of one message's text files may take of the room there is (`share`). No file
takes more than it needs, the room or the needs are all given out, and no file is left with less than
another but by one token, in whatever order they are.
-/

namespace LocalSpace.TextFiles

open Library

/-- The files in the order of their needs, each given what it needs or an equal share of what is
left. -/
@[grind =]
def giveOut (needs : List ℕ) : List ℕ → ℕ → List ℕ → List ℕ
  | [], _, shares => shares
  | i :: rest, left, shares =>
    let part := min (needs.getD i 0) (left / (rest.length + 1))
    giveOut needs rest (left - part) (shares.set i part)

/-- The tokens each of one message's files may take out of the budget. -/
def share (budget : ℕ) (needs : List ℕ) : List ℕ :=
  let order := (List.range needs.length).insertionSort fun i j => needs.getD i 0 ≤ needs.getD j 0
  giveOut needs order budget (List.replicate needs.length 0)

/-- **Files share fairly**: none takes more than it needs, the budget or the needs are all given out,
and a file that gets less than it needs gets no less than any other less one. -/
structure Fair (budget : ℕ) (needs shares : List ℕ) : Prop where
  length : shares.length = needs.length
  atMost : ∀ i, shares.getD i 0 ≤ needs.getD i 0
  all : shares.sum = min budget needs.sum
  even : ∀ i j, shares.getD i 0 < needs.getD i 0 → shares.getD j 0 ≤ shares.getD i 0 + 1

section Share

variable {budget left i : ℕ} {needs shares order : List ℕ}

theorem length_giveOut (needs order : List ℕ) (left : ℕ) (shares : List ℕ) :
    (giveOut needs order left shares).length = shares.length := by
  induction order generalizing left shares with
  | nil => rfl
  | cons i rest ih => simp [giveOut, ih]

theorem giveOut_apart (hi : i ∉ order) :
    (giveOut needs order left shares).getD i 0 = shares.getD i 0 := by
  induction order generalizing left shares with
  | nil => rfl
  | cons j rest ih =>
    obtain ⟨hne, hrest⟩ := List.ne_and_not_mem_of_not_mem_cons hi
    rw [giveOut, ih hrest]
    simp [List.getD_eq_getElem?_getD, List.getElem?_set_ne (Ne.symm hne)]

/-- What the files are given, in the order of their needs, is dealt out. -/
theorem giveOut_order (hnodup : order.Nodup) (hin : ∀ i ∈ order, i < shares.length) :
    order.map ((giveOut needs order left shares).getD · 0) =
      dealt left (order.map (needs.getD · 0)) := by
  induction order generalizing left shares with
  | nil => rfl
  | cons i rest ih =>
    obtain ⟨hnot, hnodup⟩ := List.nodup_cons.mp hnodup
    simp only [giveOut, dealt, List.map_cons, List.length_map]
    congr 1
    · rw [giveOut_apart hnot]
      simp [List.getD_eq_getElem?_getD, hin i List.mem_cons_self]
    · refine ih hnodup fun j hj => ?_
      rw [List.length_set]
      exact hin j (List.mem_cons_of_mem _ hj)

/-- The files by their needs. -/
def byNeed (needs : List ℕ) : List ℕ :=
  (List.range needs.length).insertionSort fun i j => needs.getD i 0 ≤ needs.getD j 0

theorem byNeed_perm (needs : List ℕ) : (byNeed needs).Perm (List.range needs.length) :=
  List.perm_insertionSort _ _

theorem byNeed_sorted (needs : List ℕ) :
    ((byNeed needs).map (needs.getD · 0)).Pairwise (· ≤ ·) := by
  rw [List.pairwise_map]
  have htotal : Std.Total fun i j => needs.getD i 0 ≤ needs.getD j 0 :=
    ⟨fun _ _ => Nat.le_total _ _⟩
  have htrans : IsTrans ℕ fun i j => needs.getD i 0 ≤ needs.getD j 0 :=
    ⟨fun _ _ _ => Nat.le_trans⟩
  exact List.pairwise_insertionSort _ _

theorem map_getD_range (l : List ℕ) : (List.range l.length).map (l.getD · 0) = l := by
  refine List.ext_getElem (by simp) fun i h h' => ?_
  simp [List.getD_eq_getElem?_getD, h']

/-- A sum over the files by their needs is one over the files. -/
theorem sum_byNeed (needs : List ℕ) (f : ℕ → ℕ) :
    ((byNeed needs).map f).sum = ((List.range needs.length).map f).sum :=
  ((byNeed_perm needs).map f).sum_eq

theorem share_dealt (budget : ℕ) (needs : List ℕ) :
    (byNeed needs).map ((share budget needs).getD · 0) =
      dealt budget ((byNeed needs).map (needs.getD · 0)) := by
  refine giveOut_order ((byNeed_perm needs).nodup_iff.mpr List.nodup_range) fun i hi => ?_
  rw [List.length_replicate]
  exact List.mem_range.mp ((byNeed_perm needs).mem_iff.mp hi)

theorem length_share (budget : ℕ) (needs : List ℕ) :
    (share budget needs).length = needs.length := by
  rw [share, length_giveOut, List.length_replicate]

theorem sum_share (budget : ℕ) (needs : List ℕ) :
    (share budget needs).sum = min budget needs.sum := by
  rw [← map_getD_range (share budget needs), length_share, ← sum_byNeed, share_dealt,
    sum_dealt (byNeed_sorted needs), sum_byNeed, map_getD_range]

/-- A level at which the files' needs in ascending order are met or cut. -/
def Level (budget q : ℕ) (sorted : List ℕ) : Prop :=
  ∀ p ∈ sorted.zip (dealt budget sorted), min p.1 q ≤ p.2 ∧ p.2 ≤ min p.1 (q + 1)

theorem share_level {q : ℕ} (hlevel : Level budget q ((byNeed needs).map (needs.getD · 0))) (i : ℕ) :
    min (needs.getD i 0) q ≤ (share budget needs).getD i 0 ∧
      (share budget needs).getD i 0 ≤ min (needs.getD i 0) (q + 1) := by
  by_cases hi : i < needs.length
  · refine hlevel (needs.getD i 0, (share budget needs).getD i 0) ?_
    rw [← share_dealt, List.zip_map']
    exact List.mem_map.mpr ⟨i, (byNeed_perm needs).mem_iff.mpr (List.mem_range.mpr hi), rfl⟩
  · have hneed : needs.getD i 0 = 0 := by simp [List.getD_eq_getElem?_getD, Nat.le_of_not_lt hi]
    have hshare : (share budget needs).getD i 0 = 0 := by
      simp [List.getD_eq_getElem?_getD, length_share, Nat.le_of_not_lt hi]
    omega

/-- **Files share fairly, in whatever order they are**: the same file gets the same, up to one
token. -/
theorem share_fair (budget : ℕ) (needs : List ℕ) :
    Fair budget needs (share budget needs) ∧
      ∀ (σ : Equiv.Perm (Fin needs.length)) (i : Fin needs.length),
        (share budget (List.ofFn fun k => needs[σ k])).getD i 0 ≤
            (share budget needs).getD (σ i) 0 + 1 ∧
          (share budget needs).getD (σ i) 0 ≤
            (share budget (List.ofFn fun k => needs[σ k])).getD i 0 + 1 := by
  obtain ⟨q, -, hlevel⟩ := @dealt_level budget 0 _ (byNeed_sorted needs) (by simp)
  constructor
  · refine ⟨length_share _ _, fun i => ?_, ?_, fun i j hless => ?_⟩
    · have h := share_level hlevel i
      omega
    · exact sum_share budget needs
    · have hi := share_level hlevel i
      have hj := share_level hlevel j
      omega
  · intro σ i
    -- the needs in ascending order are the same
    have hperm : (List.ofFn fun k => needs[σ k]).Perm needs := by
      have hneeds : (List.ofFn fun k : Fin needs.length => needs[k]) = needs := by simp
      conv => rhs; rw [← hneeds]
      exact Equiv.Perm.ofFn_comp_perm σ fun k => needs[k]
    have hsame : (byNeed (List.ofFn fun k => needs[σ k])).map
        ((List.ofFn fun k => needs[σ k]).getD · 0) = (byNeed needs).map (needs.getD · 0) := by
      refine List.Perm.eq_of_pairwise (fun a b _ _ => Nat.le_antisymm) (byNeed_sorted _)
        (byNeed_sorted _) ?_
      refine ((byNeed_perm _).map _).trans (.trans ?_ ((byNeed_perm needs).map _).symm)
      rw [map_getD_range, map_getD_range]
      exact hperm
    have hi := share_level (hsame ▸ hlevel) i
    have hσ := share_level hlevel (σ i)
    have hneed : (List.ofFn fun k => needs[σ k]).getD i 0 = needs.getD (σ i) 0 := by
      simp [List.getD_eq_getElem?_getD]
    rw [hneed] at hi
    omega

end Share

end LocalSpace.TextFiles
