import Mathlib.Data.List.Induction
import LocalSpace.Library.Listings
import LocalSpace.Shrinking

/-!
# The index is exact

Over every run of insertions, moves, removals and clearings, the tree holds each key's box once, and
a search finds the keys whose boxes overlap: where a key that is taken out or moved is found, which
one with a width and a height always is.
-/

namespace LocalSpace

namespace Canvas

section Roots

variable {k : Nat} {e c : Entry} {leaf : Leaf}

theorem isRoot_empty : IsRoot RTree.empty.root :=
  ⟨0, ⟨rfl, rfl, fun hne => absurd rfl hne, Nat.zero_le _, fun _ hc => nomatch hc⟩,
    fun h => absurd h (Nat.lt_irrefl 0)⟩

theorem IsNode.rebox {box : Box} {children : List Entry} {height : Nat}
    (h : IsNode (Level k) k (.inner box children height)) (hne : children ≠ []) :
    IsNode (Level k) k (.inner (boxOf children) children height) :=
  ⟨rfl, h.height, fun _ => isLUB_boxOf hne, h.most, h.below⟩

theorem settle_many {box : Box} {c d : Entry} {rest : List Entry} {height : Nat} :
    settle (.inner box (c :: d :: rest) height) =
      .inner (boxOf (c :: d :: rest)) (c :: d :: rest) height := by
  simp [settle, collapse]

theorem settle_nil {box : Box} {height : Nat} :
    settle (.inner box [] height) = .inner box [] 1 := by
  simp [settle, collapse]

theorem settle_leaf {box : Box} {l : Leaf} {height : Nat} :
    settle (.inner box [.leaf l] height) = .inner (boxOf [.leaf l]) [.leaf l] height := by
  simp [settle, collapse]

theorem settle_one {box box' : Box} {children : List Entry} {height height' : Nat} :
    settle (.inner box [.inner box' children height'] height) =
      settle (.inner box' children height') := by
  rw [settle, collapse, ← settle]

/-- A root that was taken from settles. -/
theorem isRoot_settle (h : IsNode (Level k) k e) (hne : 0 < k → e.children ≠ []) :
    IsRoot (settle e) ∧ collectLeaves (settle e) = collectLeaves e := by
  cases e with
  | leaf l => cases h.inner
  | inner box children height =>
    match children, h, hne with
    | [], h, hne =>
      rw [settle_nil]
      exact ⟨⟨0, ⟨rfl, rfl, fun hnil => absurd rfl hnil, Nat.zero_le _, fun _ hc => nomatch hc⟩,
        fun hpos => absurd hpos (Nat.lt_irrefl 0)⟩, rfl⟩
    | [.leaf l], h, hne =>
      have hk : k = 0 := by
        by_contra hpos
        obtain ⟨j, rfl⟩ := Nat.exists_eq_succ_of_ne_zero hpos
        have hchild := h.below (.leaf l) List.mem_cons_self
        cases hchild.1.inner
      subst hk
      rw [settle_leaf]
      exact ⟨⟨0, h.rebox nofun, fun hpos => absurd hpos (Nat.lt_irrefl 0)⟩, rfl⟩
    | [.inner box' children' height'], h, hne =>
      have hchild := h.below (.inner box' children' height') List.mem_cons_self
      cases k with
      | zero => cases hchild
      | succ k =>
        -- The child has four children or more: it collapses no further.
        obtain ⟨hnode, hmany⟩ := hchild
        match children', hnode, hmany with
        | c :: d :: rest, hnode, hmany =>
          rw [settle_one, settle_many]
          refine ⟨⟨k, hnode.rebox nofun, fun _ => ?_⟩, ?_⟩
          · exact Nat.succ_le_succ (Nat.succ_le_succ (Nat.zero_le _))
          · simp [collectLeaves, collectAll]
    | c :: d :: rest, h, hne =>
      rw [settle_many]
      refine ⟨⟨k, h.rebox nofun, fun _ => ?_⟩, ?_⟩
      · exact Nat.succ_le_succ (Nat.succ_le_succ (Nat.zero_le _))
      · rw [collectLeaves, collectLeaves]

/-- A leaf put into a root: it grows where it is split. -/
theorem isRoot_grow (leaf : Leaf) (h : IsRoot e) : IsRoot (grow (insertInto leaf e)) ∧
    (collectLeaves (grow (insertInto leaf e))).Perm (leaf :: collectLeaves e) := by
  obtain ⟨k, hnode, hmany⟩ := h
  have hne : 0 < k → e.children ≠ [] := by
    intro hpos hnil
    have htwo := hmany hpos
    rw [hnil] at htwo
    exact absurd htwo (by decide)
  have hinserted := inserted_insertInto leaf hnode hne
  cases hr : insertInto leaf e with
  | mk n sibling =>
    rw [hr] at hinserted
    cases hinserted with
    | kept hnode' hleaves hbox hleast =>
      exact ⟨⟨k, hnode', fun hpos => (hmany hpos).trans hleast⟩, hleaves⟩
    | @split _ s hnode' hsibling hleaves hbox hfewNode hfewSibling =>
      have htwo : 2 ≤ maxEntries := by decide
      refine ⟨⟨k + 1, ⟨rfl, ?_, fun _ => ?_, htwo, ?_⟩, fun _ => le_refl 2⟩, ?_⟩
      · exact congrArg (· + 1) hnode'.height
      · change IsLUB (boxesOf [n, s]) (union n.box s.box)
        rw [boxesOf_cons, boxesOf_singleton]
        exact isLUB_singleton.union isLUB_singleton
      · intro d hd
        obtain rfl | hd := List.mem_cons.mp hd
        · exact ⟨hnode', hfewNode⟩
        · rw [List.mem_singleton.mp hd]
          exact ⟨hsibling, hfewSibling⟩
      · rw [grow, collectLeaves, collectAll, collectAll, collectAll, List.append_nil]
        exact hleaves

end Roots

/-! ### Searching -/

section Searching

variable {k : Nat} {b : Box} {e : Entry} {cs : List Entry} {key : String}

theorem searchAll_perm (cs : List Entry) : (searchAll b cs).Perm (cs.flatMap (searchIn b)) := by
  induction cs with
  | nil => exact List.Perm.refl _
  | cons c cs ih =>
    rw [searchAll, List.flatMap_cons]
    exact List.perm_append_comm.trans (ih.append_left _)

/-- What overlaps a box, of some leaves. -/
@[grind =]
def overlapping (b : Box) (ls : List Leaf) : List String :=
  (ls.filter fun l => intersects l.box b).map Leaf.key

theorem overlapping_flatMap (cs : List Entry) :
    overlapping b (cs.flatMap collectLeaves) =
      cs.flatMap fun c => overlapping b (collectLeaves c) := by
  induction cs with
  | nil => rfl
  | cons c cs ih =>
    rw [List.flatMap_cons, List.flatMap_cons, ← ih, overlapping, List.filter_append, List.map_append]
    rfl

theorem IsNode.search_perm {P : Entry → Prop} (h : IsNode P k e)
    (hbelow : ∀ c ∈ e.children, (searchIn b c).Perm (overlapping b (collectLeaves c)) ∧
      ∀ l ∈ collectLeaves c, l.box ≤ c.box) :
    (searchIn b e).Perm (overlapping b (collectLeaves e)) := by
  cases e with
  | leaf l => cases h.inner
  | inner box children height =>
    rw [searchIn, collectLeaves, collectAll_eq]
    split
    · rw [overlapping_flatMap]
      exact (searchAll_perm children).trans
        (List.Perm.flatMap_left _ fun c hc => (hbelow c hc).1)
    · next hapart =>
      -- What does not overlap the box overlaps nothing in it.
      have hnone : overlapping b (children.flatMap collectLeaves) = [] := by
        rw [overlapping, List.map_eq_nil_iff, List.filter_eq_nil_iff]
        intro l hl hover
        obtain ⟨c, hc, hlc⟩ := List.mem_flatMap.mp hl
        have haround := h.around (List.ne_nil_of_mem hc)
        exact hapart (intersects_mono
          (((hbelow c hc).2 l hlc).trans (haround.1 (mem_boxesOf hc))) hover)
      rw [hnone]

/-- **A search** finds the leaves that overlap, however it passes nodes over. -/
theorem Level.search_perm (h : Level k e) :
    (searchIn b e).Perm (overlapping b (collectLeaves e)) := by
  induction k generalizing e with
  | zero =>
    cases e with
    | inner box children height => cases h
    | leaf l =>
      rw [searchIn, collectLeaves, overlapping]
      split
      · next hover => simp [hover]
      · next hapart => simp [hapart]
  | succ k ih =>
    exact h.1.search_perm fun c hc => ⟨ih (h.1.below c hc), (h.1.below c hc).box_le⟩

theorem IsRoot.search_perm (h : IsRoot e) :
    (searchIn b e).Perm (overlapping b (collectLeaves e)) := by
  obtain ⟨k, hnode, -⟩ := h
  exact hnode.search_perm fun c hc => ⟨(hnode.below c hc).search_perm, (hnode.below c hc).box_le⟩

end Searching

/-! ### The tree -/

/-- A tree with some leaves still to be put back: with them, its leaves are what `boxes` says. -/
structure RTree.Pending (t : RTree) (os : List Leaf) : Prop where
  root : IsRoot t.root
  nodup : ((collectLeaves t.root ++ os).map Leaf.key).Nodup
  boxes : ∀ key b, t.boxes key = some b ↔ ⟨b, key⟩ ∈ collectLeaves t.root ++ os

/-- A tree in order. -/
def RTree.Good (t : RTree) : Prop :=
  t.Pending []

section Trees

variable {t : RTree} {os : List Leaf} {o : Leaf} {key : String} {b : Box} {n : Nat}

theorem good_empty : RTree.empty.Good :=
  ⟨isRoot_empty, List.nodup_nil, fun _ _ => ⟨fun h => (nomatch h), fun h => (nomatch h)⟩⟩

theorem IsRoot.removeFrom_none {e : Entry} (h : IsRoot e) (hkey : key ∉ keysOf e) :
    removeFrom key b e = none := by
  obtain ⟨k, hnode, -⟩ := h
  exact hnode.removeFrom_none (fun c hc => (hnode.below c hc).removeFrom_none) hkey

/-- A key that is noted but not in the tree is not removed. -/
theorem RTree.removeN_gone (h : removeFrom key b t.root = none) (hbox : t.boxes key = some b)
    (n : Nat) : RTree.removeN n t key = (⟨t.root, Function.update t.boxes key none⟩, false) := by
  have hgone : ∀ insert, RTree.removeWith insert t key =
      (⟨t.root, Function.update t.boxes key none⟩, false) := by
    intro insert
    rw [RTree.removeWith, hbox]
    dsimp only
    rw [h]
  cases n with
  | zero => exact hgone _
  | succ n => exact hgone _

/-- A leaf that is to be put back is put back: nothing is moved for it. -/
theorem RTree.Pending.putBack (h : t.Pending (o :: os)) :
    (RTree.insertWith (RTree.removeN n) t o.key o.box).Pending os ∧
      (RTree.insertWith (RTree.removeN n) t o.key o.box).boxes = t.boxes := by
  have hbox : t.boxes o.key = some o.box :=
    (h.boxes o.key o.box).mpr (List.mem_append_right _ List.mem_cons_self)
  have hnodup := h.nodup
  rw [List.map_append, List.nodup_append] at hnodup
  have hkey : o.key ∉ keysOf t.root := fun hin =>
    hnodup.2.2 o.key hin o.key List.mem_cons_self rfl
  have hremove := RTree.removeN_gone (h.root.removeFrom_none hkey) hbox n
  have hinsert : RTree.insertWith (RTree.removeN n) t o.key o.box =
      ⟨grow (insertInto o t.root), t.boxes⟩ := by
    have hsome : (t.boxes o.key).isSome = true := by
      rw [hbox]
      rfl
    rw [RTree.insertWith, if_pos hsome, hremove, RTree.put]
    dsimp only
    rw [Function.update_idem, ← hbox, Function.update_eq_self]
  obtain ⟨hroot, hleaves⟩ := isRoot_grow o h.root
  have hperm : (collectLeaves (grow (insertInto o t.root)) ++ os).Perm
      (collectLeaves t.root ++ o :: os) :=
    (hleaves.append_right os).trans List.perm_middle.symm
  rw [hinsert]
  exact ⟨⟨hroot, (hperm.map Leaf.key).nodup_iff.mpr h.nodup, fun key b =>
    (h.boxes key b).trans hperm.mem_iff.symm⟩, rfl⟩

theorem RTree.Pending.putAllBack (h : t.Pending os) :
    (os.foldl (fun t o => RTree.insertWith (RTree.removeN n) t o.key o.box) t).Good ∧
      (os.foldl (fun t o => RTree.insertWith (RTree.removeN n) t o.key o.box) t).boxes = t.boxes := by
  induction os generalizing t with
  | nil => exact ⟨h, rfl⟩
  | cons o os ih =>
    obtain ⟨hpending, hboxes⟩ := h.putBack (n := n)
    obtain ⟨hgood, hsame⟩ := ih hpending
    exact ⟨hgood, hsame.trans hboxes⟩

/-- A new key is put in. -/
theorem RTree.Good.put (h : t.Good) (hkey : t.boxes key = none) : (t.put key b).Good := by
  obtain ⟨hroot, hleaves⟩ := isRoot_grow ⟨b, key⟩ h.root
  have hnew : key ∉ keysOf t.root := by
    intro hin
    obtain ⟨l, hl, rfl⟩ := List.mem_map.mp hin
    have hbox := (h.boxes l.key l.box).mpr (List.mem_append_left _ hl)
    rw [hkey] at hbox
    cases hbox
  have hnodup := h.nodup
  rw [List.append_nil] at hnodup
  refine ⟨hroot, ?_, fun key' b' => ?_⟩
  · rw [List.append_nil]
    exact (hleaves.map Leaf.key).nodup_iff.mpr (List.nodup_cons.mpr ⟨hnew, hnodup⟩)
  · have hold := h.boxes key' b'
    rw [List.append_nil] at hold ⊢
    rw [RTree.put]
    dsimp only
    rw [hleaves.mem_iff, List.mem_cons]
    by_cases hsame : key' = key
    · subst hsame
      rw [Function.update_self]
      constructor
      · intro heq
        cases heq
        exact .inl rfl
      · rintro (heq | hin)
        · cases heq
          rfl
        · exact absurd (List.mem_map_of_mem hin) hnew
    · rw [Function.update_of_ne hsame, hold]
      refine ⟨.inr, fun hin => hin.resolve_left fun heq => hsame (congrArg Leaf.key heq)⟩

/-- A key that is found is taken out. -/
theorem RTree.Good.remove (h : t.Good) (hkey : t.boxes key = some b) (hfound : Found key b t.root) :
    (t.remove key).2 = true ∧ (t.remove key).1.Good ∧
      (t.remove key).1.boxes = Function.update t.boxes key none := by
  have hl : (⟨b, key⟩ : Leaf) ∈ collectLeaves t.root := by
    have hin := (h.boxes key b).mp hkey
    rwa [List.append_nil] at hin
  have hnodup := h.nodup
  rw [List.append_nil] at hnodup
  obtain ⟨k, hnode, hmany⟩ := h.root
  obtain ⟨⟨root, orphans⟩, hremoved, hnode', hleaves, hcount⟩ :=
    removed_removeFrom hnode hl hnodup hfound
  dsimp only at hremoved hnode' hleaves hcount
  obtain ⟨hroot, hsettled⟩ := isRoot_settle hnode' fun hpos hnil => by
    have htwo := hmany hpos
    rw [hnil] at hcount
    exact absurd (htwo.trans hcount) (by decide)
  have hperm := hleaves.map Leaf.key
  have hpending : RTree.Pending ⟨settle root, Function.update t.boxes key none⟩ orphans := by
    have hdistinct := hperm.nodup_iff.mpr hnodup
    rw [List.map_cons, List.nodup_cons] at hdistinct
    refine ⟨hroot, ?_, fun key' b' => ?_⟩
    · rw [hsettled]
      exact hdistinct.2
    · rw [hsettled]
      have hold := h.boxes key' b'
      rw [List.append_nil, ← hleaves.mem_iff, List.mem_cons] at hold
      dsimp only
      by_cases hsame : key' = key
      · subst hsame
        rw [Function.update_self]
        exact ⟨fun heq => (nomatch heq), fun hin =>
          absurd (List.mem_map_of_mem hin) hdistinct.1⟩
      · rw [Function.update_of_ne hsame, hold]
        exact ⟨fun hin => hin.resolve_left fun heq => hsame (congrArg Leaf.key heq), .inr⟩
  obtain ⟨m, hm⟩ : ∃ m, (collectLeaves t.root).length = m + 1 :=
    Nat.exists_eq_succ_of_ne_zero (List.length_pos_of_mem hl).ne'
  have hresult : t.remove key =
      (orphans.foldl (fun t o => RTree.insertWith (RTree.removeN m) t o.key o.box)
        ⟨settle root, Function.update t.boxes key none⟩, true) := by
    rw [RTree.remove, hm, RTree.removeN, RTree.removeWith, hkey]
    dsimp only
    rw [hremoved]
  rw [hresult]
  obtain ⟨hgood, hboxes⟩ := hpending.putAllBack (n := m)
  exact ⟨rfl, hgood, hboxes⟩

theorem RTree.remove_absent (hkey : t.boxes key = none) : t.remove key = (t, false) := by
  have habsent : ∀ insert, RTree.removeWith insert t key = (t, false) := by
    intro insert
    rw [RTree.removeWith, hkey]
  rw [RTree.remove]
  cases (collectLeaves t.root).length with
  | zero => exact habsent _
  | succ n => exact habsent _

/-- A key is put in, or moved where it is found. -/
theorem RTree.Good.insert (h : t.Good)
    (hfound : ∀ b', t.boxes key = some b' → Found key b' t.root) :
    (t.insert key b).Good ∧ (t.insert key b).boxes = Function.update t.boxes key (some b) := by
  rw [RTree.insert, RTree.insertWith]
  cases hkey : t.boxes key with
  | none => exact ⟨h.put hkey, rfl⟩
  | some b' =>
    obtain ⟨-, hgood, hboxes⟩ := h.remove hkey (hfound b' hkey)
    have hthere : (some b').isSome = true := rfl
    rw [if_pos hthere]
    refine ⟨hgood.put ?_, ?_⟩
    · rw [hboxes, Function.update_self]
    · rw [RTree.put]
      dsimp only
      rw [hboxes, Function.update_idem]

end Trees

/-! ### Runs -/

/-- What is done to an index. -/
inductive IndexOp where
  | insert (key : String) (b : Box)
  | remove (key : String)
  | clear

namespace IndexOp

@[grind =]
def apply (t : RTree) : IndexOp → RTree
  | insert key b => t.insert key b
  | remove key => (t.remove key).1
  | clear => .empty

/-- What it does to the keys and their boxes. -/
@[grind =]
def note (m : String → Option Box) : IndexOp → String → Option Box
  | insert key b => Function.update m key (some b)
  | remove key => Function.update m key none
  | clear => fun _ => none

/-- What is asked of an operation: a key that it takes out or moves has a box that overlaps the
boxes of the nodes over it. -/
def Meets (t : RTree) : IndexOp → Prop
  | insert key _ => ∀ b, t.boxes key = some b → Found key b t.root
  | remove key => ∀ b, t.boxes key = some b → Found key b t.root
  | clear => True

instance (t : RTree) : (op : IndexOp) → Decidable (op.Meets t)
  | .insert key _ | .remove key =>
    inferInstanceAs (Decidable (∀ b ∈ t.boxes key, Found key b t.root))
  | .clear => .isTrue trivial

end IndexOp

def indexed (ops : List IndexOp) : RTree :=
  ops.foldl IndexOp.apply .empty

/-- The current boxes after a run. -/
def notedBoxes (ops : List IndexOp) : String → Option Box :=
  ops.foldl IndexOp.note fun _ => none

/-- An index is exact: a search finds each key whose current box overlaps once, and no other; and
every node has its children's union for its box, four to nine children but for the root, and leaves
all at one depth. -/
structure Exact (m : String → Option Box) (t : RTree) : Prop where
  once : ∀ b, (t.search b).Nodup
  found : ∀ b key, key ∈ t.search b ↔ ∃ box, m key = some box ∧ intersects box b = true
  shape : IsRoot t.root

section Exactness

variable {t : RTree} {m : String → Option Box} {ops : List IndexOp} {op : IndexOp}

theorem RTree.Good.exact (h : t.Good) : Exact t.boxes t := by
  have hnodup := h.nodup
  rw [List.append_nil] at hnodup
  refine ⟨fun b => ?_, fun b key => ?_, h.root⟩
  · exact h.root.search_perm.nodup_iff.mpr (hnodup.sublist (List.filter_sublist.map Leaf.key))
  · rw [RTree.search, h.root.search_perm.mem_iff, overlapping, List.mem_map]
    constructor
    · rintro ⟨l, hl, rfl⟩
      obtain ⟨hl, hover⟩ := List.mem_filter.mp hl
      exact ⟨l.box, (h.boxes l.key l.box).mpr (List.mem_append_left _ hl), hover⟩
    · rintro ⟨box, hbox, hover⟩
      have hl := (h.boxes key box).mp hbox
      rw [List.append_nil] at hl
      exact ⟨⟨box, key⟩, List.mem_filter.mpr ⟨hl, hover⟩, rfl⟩

/-- A step keeps the tree in order, and does to the boxes what is noted. -/
theorem RTree.Good.step (h : t.Good) (hmeets : op.Meets t) :
    (op.apply t).Good ∧ (op.apply t).boxes = op.note t.boxes := by
  cases op with
  | insert key b => exact h.insert hmeets
  | clear => exact ⟨good_empty, rfl⟩
  | remove key =>
    rw [IndexOp.apply, IndexOp.note]
    cases hkey : t.boxes key with
    | none =>
      rw [RTree.remove_absent hkey]
      exact ⟨h, by rw [← hkey, Function.update_eq_self]⟩
    | some b => exact (h.remove hkey (hmeets b hkey)).2

theorem RTree.Good.remove_answer (h : t.Good) {key : String}
    (hmeets : (IndexOp.remove key).Meets t) : (t.remove key).2 = (t.boxes key).isSome := by
  cases hkey : t.boxes key with
  | none => rw [RTree.remove_absent hkey]; rfl
  | some b => exact (h.remove hkey (hmeets b hkey)).1

theorem good_indexed (h : ∀ before op after, ops = before ++ op :: after →
    op.Meets (indexed before)) : (indexed ops).Good ∧ (indexed ops).boxes = notedBoxes ops := by
  induction ops using List.reverseRecOn with
  | nil => exact ⟨good_empty, rfl⟩
  | append_singleton ops op ih =>
    obtain ⟨hgood, hboxes⟩ := ih fun before op' after hsplit =>
      h before op' (after ++ [op]) (by rw [hsplit, List.append_assoc]; rfl)
    obtain ⟨hgood', hboxes'⟩ := hgood.step (h ops op [] rfl)
    rw [indexed, notedBoxes, List.foldl_append, List.foldl_append]
    exact ⟨hgood', hboxes'.trans (congrArg op.note hboxes)⟩

/-- **The index is exact** after every run in which what is taken out or moved is found: it holds
the boxes as they now are, and every removal has answered whether its key was there. -/
theorem index_exact (h : ∀ before op after, ops = before ++ op :: after →
    op.Meets (indexed before)) : Exact (notedBoxes ops) (indexed ops) ∧
      ∀ before key after, ops = before ++ .remove key :: after →
        ((indexed before).remove key).2 = (notedBoxes before key).isSome := by
  obtain ⟨hgood, hboxes⟩ := good_indexed h
  refine ⟨hboxes ▸ hgood.exact, fun before key after hsplit => ?_⟩
  obtain ⟨hbefore, hnoted⟩ : (indexed before).Good ∧ (indexed before).boxes = notedBoxes before :=
    good_indexed fun before' op after' hsplit' =>
    h before' op (after' ++ .remove key :: after) (by rw [hsplit, hsplit', List.append_assoc]; rfl)
  rw [← hnoted]
  exact hbefore.remove_answer (h before _ after hsplit)

theorem IsNode.holders_le {P : Entry → Prop} {k : Nat} {e : Entry} {key : String}
    (h : IsNode P k e) (hbelow : ∀ c ∈ e.children, (∀ l ∈ collectLeaves c, l.box ≤ c.box) ∧
      ∀ box ∈ holders key c, ∃ l ∈ collectLeaves c, l.key = key ∧ l.box ≤ box) :
    ∀ box ∈ holders key e, ∃ l ∈ collectLeaves e, l.key = key ∧ l.box ≤ box := by
  intro box hbox
  cases e with
  | leaf l => cases h.inner
  | inner box' children height =>
    rw [collectLeaves, collectAll_eq]
    rw [holders] at hbox
    split at hbox
    · next hkey =>
      obtain rfl | hbox := List.mem_cons.mp hbox
      · rw [collectAll_eq] at hkey
        obtain ⟨l, hl, heq⟩ := List.mem_map.mp hkey
        obtain ⟨c, hc, hlc⟩ := List.mem_flatMap.mp hl
        have haround := h.around (List.ne_nil_of_mem hc)
        exact ⟨l, hl, heq, ((hbelow c hc).1 l hlc).trans (haround.1 (mem_boxesOf hc))⟩
      · rw [holdersAll_eq] at hbox
        obtain ⟨c, hc, hbox⟩ := List.mem_flatMap.mp hbox
        obtain ⟨l, hl, heq, hle⟩ := (hbelow c hc).2 box hbox
        exact ⟨l, List.mem_flatMap.mpr ⟨c, hc, hl⟩, heq, hle⟩
    · cases hbox

theorem Level.holders_le {k : Nat} {e : Entry} {key : String} (h : Level k e) :
    ∀ box ∈ holders key e, ∃ l ∈ collectLeaves e, l.key = key ∧ l.box ≤ box := by
  induction k generalizing e with
  | zero =>
    cases e with
    | leaf l => exact fun box hbox => nomatch hbox
    | inner box children height => cases h
  | succ k ih =>
    exact h.1.holders_le fun c hc => ⟨(h.1.below c hc).box_le, ih (h.1.below c hc)⟩

/-- What has a width and a height is found. -/
theorem RTree.Good.found (h : t.Good) {key : String} {b : Box} (hkey : t.boxes key = some b)
    (hw : 0 < b.w) (hh : 0 < b.h) : Found key b t.root := by
  intro box hbox
  obtain ⟨k, hnode, -⟩ := h.root
  obtain ⟨l, hl, rfl, hle⟩ := hnode.holders_le
    (fun c hc => ⟨(hnode.below c hc).box_le, (hnode.below c hc).holders_le⟩) box hbox
  have hsame := (h.boxes l.key l.box).mpr (List.mem_append_left _ hl)
  rw [hkey] at hsame
  cases hsame
  exact intersects_of_le hle hw hh

end Exactness

/-- Two keys, of which one is moved and the other taken out. -/
def swapped : List IndexOp :=
  [.insert "a" ⟨0, 0, 4, 4⟩, .insert "b" ⟨2, 2, 4, 4⟩, .insert "a" ⟨9, 0, 4, 4⟩, .remove "b"]

theorem index_exact_moved : Exact (notedBoxes swapped) (indexed swapped) := by
  have hmeets : ∀ k : Fin swapped.length, swapped[k].Meets (indexed (swapped.take k)) := by
    decide +kernel
  exact (index_exact (Library.forall_split hmeets)).1

/-- A box of no width is not found again. -/
theorem flat_kept : ¬(Exact (notedBoxes [.insert "a" ⟨0, 0, 0, 10⟩, .remove "a"])
    (indexed [.insert "a" ⟨0, 0, 0, 10⟩, .remove "a"]) ∧
      ∀ before key after, [.insert "a" ⟨0, 0, 0, 10⟩, .remove "a"] =
        before ++ IndexOp.remove key :: after →
          ((indexed before).remove key).2 = (notedBoxes before key).isSome) := by
  rintro ⟨-, hanswer⟩
  exact absurd (hanswer [.insert "a" ⟨0, 0, 0, 10⟩] "a" [] rfl) (by decide +kernel)

end Canvas

end LocalSpace
