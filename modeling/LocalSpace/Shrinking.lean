import LocalSpace.Growing

/-!
# What a removal keeps

A key is found where its box overlaps the boxes of the nodes over it, as it does when it has a width
and a height. The node it is taken from keeps its shape; the leaves of what is dissolved, and those
that are left, are the leaves there were but one.
-/

namespace LocalSpace

namespace Canvas

/-- The keys beneath an entry. -/
def keysOf (e : Entry) : List String :=
  (collectLeaves e).map Leaf.key

mutual

/-- The boxes of the nodes over a key. -/
def holders (key : String) : Entry → List Box
  | .leaf _ => []
  | .inner box children _ =>
    if key ∈ (collectAll children).map Leaf.key then box :: holdersAll key children else []

def holdersAll (key : String) : List Entry → List Box
  | [] => []
  | c :: cs => holders key c ++ holdersAll key cs

end

/-- A key's box overlaps the boxes of the nodes over it. -/
def Found (key : String) (b : Box) (e : Entry) : Prop :=
  ∀ box ∈ holders key e, intersects box b = true

instance (key : String) (b : Box) (e : Entry) : Decidable (Found key b e) :=
  inferInstanceAs (Decidable (∀ box ∈ holders key e, intersects box b = true))

/-- A node that a key was taken from. -/
structure Removed (k : Nat) (l : Leaf) (e : Entry) (r : Entry × List Leaf) : Prop where
  node : IsNode (Level k) k r.1
  leaves : (l :: (collectLeaves r.1 ++ r.2)).Perm (collectLeaves e)
  many : e.children.length ≤ r.1.children.length + 1

section Removals

variable {k : Nat} {l : Leaf} {key : String} {b : Box} {e c : Entry} {cs pre post : List Entry}

theorem holdersAll_eq (cs : List Entry) : holdersAll key cs = cs.flatMap (holders key) := by
  induction cs with
  | nil => rfl
  | cons c cs ih => rw [holdersAll, ih, List.flatMap_cons]

theorem holders_inner {box : Box} {children : List Entry} {height : Nat}
    (h : key ∈ (collectAll children).map Leaf.key) :
    holders key (.inner box children height) = box :: holdersAll key children := by
  rw [holders]
  exact if_pos h

/-- An entry without the key is passed over. -/
theorem removeAmong_skip (hkey : key ∉ keysOf c) (hnone : removeFrom key b c = none) :
    removeAmong key b (c :: cs) = (removeAmong key b cs).map fun r => (c :: r.1, r.2) := by
  cases c with
  | leaf l =>
    rw [removeAmong, if_neg]
    rintro rfl
    exact hkey (by rw [keysOf, collectLeaves]; exact List.mem_singleton.mpr rfl)
  | inner box children height => rw [removeAmong, hnone]

theorem removeAmong_none (h : ∀ c ∈ cs, key ∉ keysOf c ∧ removeFrom key b c = none) :
    removeAmong key b cs = none := by
  induction cs with
  | nil => rfl
  | cons c cs ih =>
    obtain ⟨hkey, hnone⟩ := h c List.mem_cons_self
    rw [removeAmong_skip hkey hnone, ih fun d hd => h d (List.mem_cons_of_mem _ hd), Option.map_none]

theorem removeAmong_append (h : ∀ c ∈ pre, key ∉ keysOf c ∧ removeFrom key b c = none) :
    removeAmong key b (pre ++ cs) =
      (removeAmong key b cs).map fun r => (pre ++ r.1, r.2) := by
  induction pre with
  | nil => rw [List.nil_append]; exact Option.map_id'.symm
  | cons c pre ih =>
    obtain ⟨hkey, hnone⟩ := h c List.mem_cons_self
    rw [List.cons_append, removeAmong_skip hkey hnone,
      ih fun d hd => h d (List.mem_cons_of_mem _ hd), Option.map_map]
    rfl

theorem keysOf_subset (hc : c ∈ cs) (hkey : key ∈ keysOf c) :
    key ∈ (collectAll cs).map Leaf.key := by
  obtain ⟨l, hl, rfl⟩ := List.mem_map.mp hkey
  rw [collectAll_eq]
  exact List.mem_map_of_mem (List.mem_flatMap.mpr ⟨c, hc, hl⟩)

theorem keysOf_inner (h : e.isLeaf = false) :
    keysOf e = (collectAll e.children).map Leaf.key := by
  rw [keysOf, collectLeaves_inner h]

/-- A key that is not there is not taken out. -/
theorem IsNode.removeFrom_none {P : Entry → Prop} (h : IsNode P k e)
    (hbelow : ∀ c ∈ e.children, key ∉ keysOf c → removeFrom key b c = none)
    (hkey : key ∉ keysOf e) : removeFrom key b e = none := by
  rw [keysOf_inner h.inner] at hkey
  have hnone : removeAmong key b e.children = none := by
    refine removeAmong_none fun c hc => ?_
    have hc' : key ∉ keysOf c := fun hin => hkey (keysOf_subset hc hin)
    exact ⟨hc', hbelow c hc hc'⟩
  cases e with
  | leaf l => cases h.inner
  | inner box children height =>
    rw [removeFrom]
    split
    · rfl
    · exact congrArg (Option.map _) hnone

theorem Level.removeFrom_none (h : Level k e) (hkey : key ∉ keysOf e) :
    removeFrom key b e = none := by
  induction k generalizing e with
  | zero =>
    cases e with
    | leaf l => rfl
    | inner box children height => cases h
  | succ k ih => exact h.1.removeFrom_none (fun c hc => ih (h.1.below c hc)) hkey

/-- A node with other children, its box around them. -/
theorem isNode_with {box : Box} {height : Nat} {children : List Entry}
    (hheight : height = k + 1) (hmost : children.length ≤ maxEntries)
    (hbelow : ∀ c ∈ children, Level k c) :
    IsNode (Level k) k (.inner (if children.isEmpty then box else boxOf children) children height) := by
  refine ⟨rfl, hheight, fun hne => ?_, hmost, hbelow⟩
  change IsLUB (boxesOf children) (if children.isEmpty then box else boxOf children)
  have hfull : children ≠ [] := hne
  rw [if_neg fun hempty => hfull (List.isEmpty_iff.mp hempty)]
  exact isLUB_boxOf hfull

/-- A key's box overlaps the boxes over it in a child too. -/
theorem Found.child (h : Found key b e) (hinner : e.isLeaf = false) (hc : c ∈ e.children)
    (hkey : key ∈ keysOf c) : Found key b c := by
  intro box hbox
  cases e with
  | leaf l => cases hinner
  | inner box' children height =>
    have hin : key ∈ (collectAll children).map Leaf.key := keysOf_subset hc hkey
    refine h box ?_
    rw [holders_inner hin, holdersAll_eq]
    exact List.mem_cons_of_mem _ (List.mem_flatMap.mpr ⟨c, hc, hbox⟩)

/-- What is taken from among the children is taken from the node. -/
theorem Found.removeFrom (h : Found key b e) (hinner : e.isLeaf = false) (hkey : key ∈ keysOf e)
    {r : List Entry × List Leaf} (hr : removeAmong key b e.children = some r) :
    Canvas.removeFrom key b e =
      some (.inner (if r.1.isEmpty then e.box else boxOf r.1) r.1 e.height, r.2) := by
  cases e with
  | leaf l => cases hinner
  | inner box children height =>
    have hover : intersects box b = true := by
      have hin : key ∈ (collectAll children).map Leaf.key := by
        rwa [keysOf_inner rfl] at hkey
      refine h box ?_
      rw [holders_inner hin]
      exact List.mem_cons_self
    rw [Canvas.removeFrom, hover, if_neg (by simp)]
    exact congrArg (Option.map _) hr

/-- The child that holds a key, among the others that do not. -/
theorem child_of_key (hinner : e.isLeaf = false) (hl : l ∈ collectLeaves e)
    (hnodup : (keysOf e).Nodup) : ∃ pre c post, e.children = pre ++ c :: post ∧
      l ∈ collectLeaves c ∧ (keysOf c).Nodup ∧ ∀ d ∈ pre, l.key ∉ keysOf d := by
  rw [collectLeaves_inner hinner, collectAll_eq] at hl
  obtain ⟨c, hc, hlc⟩ := List.mem_flatMap.mp hl
  obtain ⟨pre, post, hsplit⟩ := List.append_of_mem hc
  rw [keysOf_inner hinner, hsplit, collectAll_append, collectAll, List.map_append,
    List.map_append] at hnodup
  obtain ⟨-, hrest, hapart⟩ := List.nodup_append.mp hnodup
  refine ⟨pre, c, post, hsplit, hlc, (List.nodup_append.mp hrest).1, fun d hd hkey => ?_⟩
  exact hapart _ (keysOf_subset hd hkey) _
    (List.mem_append_left _ (List.mem_map_of_mem hlc)) rfl

/-- **A removal** from a node that holds the key, found there. -/
theorem removed_removeFrom (h : IsNode (Level k) k e) (hl : l ∈ collectLeaves e)
    (hnodup : (keysOf e).Nodup) (hfound : Found l.key l.box e) :
    ∃ r, removeFrom l.key l.box e = some r ∧ Removed k l e r := by
  induction k generalizing e with
  | zero =>
    obtain ⟨pre, c, post, hsplit, hlc, -, hpre⟩ := child_of_key h.inner hl hnodup
    have hbelow := h.below
    have hmost := h.most
    rw [hsplit] at hbelow hmost
    have hleaf : c = .leaf l := by
      have hc := hbelow c (List.mem_append_right _ List.mem_cons_self)
      cases c with
      | leaf l' =>
        rw [collectLeaves, List.mem_singleton] at hlc
        rw [hlc]
      | inner box children height => cases hc
    have hamong : removeAmong l.key l.box e.children = some (pre ++ post, []) := by
      rw [hsplit, hleaf, removeAmong_append fun d hd =>
        ⟨hpre d hd, (hbelow d (List.mem_append_left _ hd)).removeFrom_none (k := 0) (hpre d hd)⟩,
        removeAmong, if_pos rfl]
      rfl
    refine ⟨_, hfound.removeFrom h.inner (List.mem_map_of_mem hl) hamong,
      isNode_with h.height ?_ ?_, ?_, ?_⟩
    · rw [List.length_append, List.length_cons] at hmost
      rw [List.length_append]
      omega
    · intro d hd
      refine hbelow d ?_
      obtain hd | hd := List.mem_append.mp hd
      · exact List.mem_append_left _ hd
      · exact List.mem_append_right _ (List.mem_cons_of_mem _ hd)
    · rw [collectLeaves, List.append_nil, collectLeaves_inner h.inner, hsplit, hleaf]
      refine (collectAll_middle.trans ?_).symm
      rw [collectLeaves]
      exact List.Perm.refl _
    · rw [hsplit, List.length_append, List.length_cons]
      change _ ≤ (pre ++ post).length + 1
      rw [List.length_append]
      omega
  | succ k ih =>
    obtain ⟨pre, c, post, hsplit, hlc, hnodupc, hpre⟩ := child_of_key h.inner hl hnodup
    have hbelow := h.below
    have hmost := h.most
    rw [hsplit] at hbelow hmost
    have hmem : c ∈ e.children := by
      rw [hsplit]
      exact List.mem_append_right _ List.mem_cons_self
    have hchild := h.below c hmem
    have hkeyc : l.key ∈ keysOf c := List.mem_map_of_mem hlc
    obtain ⟨⟨c', orphans⟩, hremoved, hnode, hleaves, hmany⟩ :=
      ih hchild.1 hlc hnodupc (hfound.child h.inner hmem hkeyc)
    dsimp only at hnode hleaves hmany
    have hskip : ∀ d ∈ pre, l.key ∉ keysOf d ∧ removeFrom l.key l.box d = none := fun d hd =>
      ⟨hpre d hd, (hbelow d (List.mem_append_left _ hd)).removeFrom_none (hpre d hd)⟩
    have hothers : ∀ d ∈ pre ++ post, Level (k + 1) d := by
      intro d hd
      refine hbelow d ?_
      obtain hd | hd := List.mem_append.mp hd
      · exact List.mem_append_left _ hd
      · exact List.mem_append_right _ (List.mem_cons_of_mem _ hd)
    have hcount : (pre ++ c :: post).length = (pre ++ post).length + 1 := by
      rw [List.length_append, List.length_append, List.length_cons]
      omega
    have hall : (collectLeaves c ++ collectAll (pre ++ post)).Perm (collectLeaves e) := by
      rw [collectLeaves_inner h.inner, hsplit]
      exact collectAll_middle.symm
    have hhere : removeAmong l.key l.box e.children =
        if c'.children.length < minEntries then some (pre ++ post, orphans ++ collectLeaves c')
        else some (pre ++ c' :: post, orphans) := by
      rw [hsplit, removeAmong_append hskip]
      cases c with
      | leaf l' => cases hchild.1.inner
      | inner box children height =>
        rw [removeAmong, hremoved]
        dsimp only
        split
        · rfl
        · rfl
    by_cases hfew : c'.children.length < minEntries
    · -- The child is dissolved: its leaves are to be inserted again.
      rw [if_pos hfew] at hhere
      refine ⟨_, hfound.removeFrom h.inner (List.mem_map_of_mem hl) hhere,
        isNode_with h.height ?_ hothers, ?_, ?_⟩
      · rw [hcount] at hmost
        exact (Nat.le_succ _).trans hmost
      · refine List.Perm.trans ?_ hall
        rw [collectLeaves]
        refine List.Perm.trans ?_ (hleaves.append_right _)
        rw [List.cons_append]
        refine List.Perm.cons l ?_
        refine List.perm_append_comm.trans ?_
        exact List.perm_append_comm.append_right _
      · rw [hsplit, hcount]
        exact le_refl _
    · rw [if_neg hfew] at hhere
      have hlength : (pre ++ c' :: post).length = (pre ++ c :: post).length := by
        rw [List.length_append, List.length_append, List.length_cons, List.length_cons]
      refine ⟨_, hfound.removeFrom h.inner (List.mem_map_of_mem hl) hhere,
        isNode_with h.height (hlength.trans_le hmost) ?_, ?_, ?_⟩
      · intro d hd
        obtain hd | hd := List.mem_append.mp hd
        · exact hothers d (List.mem_append_left _ hd)
        · obtain rfl | hd := List.mem_cons.mp hd
          · exact ⟨hnode, not_lt.mp hfew⟩
          · exact hothers d (List.mem_append_right _ hd)
      · refine List.Perm.trans ?_ hall
        rw [collectLeaves]
        refine List.Perm.trans ?_ (hleaves.append_right _)
        rw [List.cons_append]
        refine List.Perm.cons l ?_
        refine (collectAll_middle.append_right _).trans ?_
        rw [List.append_assoc, List.append_assoc]
        exact List.perm_append_comm.append_left _
      · rw [hsplit]
        exact (hlength.symm.trans_le (Nat.le_succ _))

end Removals

end Canvas

end LocalSpace
