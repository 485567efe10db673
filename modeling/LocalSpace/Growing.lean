import LocalSpace.RTree

/-!
# What an insertion keeps

A node has its children's box around it, no more than nine of them, and its height over leaves that
are all at one depth. A split deals the children out in two groups of at least four; an insertion
adds its leaf to the leaves and its box to the boxes over it.
-/

namespace LocalSpace

namespace Canvas

/-- The boxes of some entries. -/
def boxesOf (es : List Entry) : Set Box :=
  {b | b ∈ es.map Entry.box}

/-- A node over entries of a kind, at a height: its box is the union of its children's. -/
structure IsNode (P : Entry → Prop) (k : Nat) (e : Entry) : Prop where
  inner : e.isLeaf = false
  height : e.height = k + 1
  around : e.children ≠ [] → IsLUB (boxesOf e.children) e.box
  most : e.children.length ≤ maxEntries
  below : ∀ c ∈ e.children, P c

/-- A leaf, or a node with enough children, so many levels over its leaves. -/
def Level : Nat → Entry → Prop
  | 0, e => e.isLeaf = true
  | k + 1, e => IsNode (Level k) k e ∧ minEntries ≤ e.children.length

/-- A root may have fewer children, and none over leaves. -/
def IsRoot (e : Entry) : Prop :=
  ∃ k, IsNode (Level k) k e ∧ (0 < k → 2 ≤ e.children.length)

section Around

variable {es l l' : List Entry} {e c : Entry} {a b : Box}

theorem boxesOf_append : boxesOf (l ++ l') = boxesOf l ∪ boxesOf l' := by
  ext b
  rw [boxesOf, Set.mem_ofPred_eq, List.map_append, List.mem_append]
  rfl

theorem boxesOf_singleton : boxesOf [e] = {e.box} := by
  ext b
  exact List.mem_singleton

theorem boxesOf_cons : boxesOf (e :: l) = {e.box} ∪ boxesOf l := by
  rw [← boxesOf_singleton, ← boxesOf_append]
  rfl

theorem boxesOf_perm (h : l.Perm l') : boxesOf l = boxesOf l' := by
  ext b
  exact (h.map Entry.box).mem_iff

theorem mem_boxesOf (h : e ∈ l) : e.box ∈ boxesOf l :=
  List.mem_map_of_mem h

theorem isLUB_foldl (l : List Entry) (h : IsLUB (boxesOf l') b) :
    IsLUB (boxesOf (l' ++ l)) (l.foldl (fun b c => union b c.box) b) := by
  induction l generalizing l' b with
  | nil => rwa [List.append_nil]
  | cons c l ih =>
    rw [List.append_cons]
    refine ih ?_
    rw [boxesOf_append, boxesOf_singleton]
    exact h.union isLUB_singleton

theorem isLUB_boxOf (h : es ≠ []) : IsLUB (boxesOf es) (boxOf es) := by
  cases es with
  | nil => exact absurd rfl h
  | cons e es =>
    have hfirst : IsLUB (boxesOf [e]) e.box := by
      rw [boxesOf_singleton]
      exact isLUB_singleton
    exact isLUB_foldl es hfirst

/-- One box gives way to some around it and another box. -/
theorem isLUB_grow {S N : Set Box} {x : Box} (h : IsLUB ({x} ∪ S) b) (hN : IsLUB N (x ⊔ a)) :
    IsLUB (N ∪ S) (b ⊔ a) := by
  constructor
  · rintro y (hy | hy)
    · exact (hN.1 hy).trans (sup_le_sup_right (h.1 (.inl rfl)) a)
    · exact (h.1 (.inr hy)).trans le_sup_left
  · intro z hz
    have hgrown : x ⊔ a ≤ z := hN.2 fun y hy => hz (.inl hy)
    refine sup_le (h.2 ?_) (le_sup_right.trans hgrown)
    rintro y (rfl | hy)
    · exact le_sup_left.trans hgrown
    · exact hz (.inr hy)

theorem boxesOf_middle : boxesOf (l ++ e :: l') = {e.box} ∪ boxesOf (l ++ l') := by
  rw [boxesOf_perm List.perm_middle, boxesOf_cons]

/-- A child's box grows by a box, and so does the box around. -/
theorem isLUB_replace {e' : Entry} (h : IsLUB (boxesOf (l ++ e :: l')) b) (he : e'.box = e.box ⊔ a) :
    IsLUB (boxesOf (l ++ e' :: l')) (b ⊔ a) := by
  rw [boxesOf_middle] at h ⊢
  refine isLUB_grow h ?_
  rw [he]
  exact isLUB_singleton

/-- A child gives way to two. -/
theorem isLUB_replace_two {n s : Entry} (h : IsLUB (boxesOf (l ++ e :: l')) b)
    (he : n.box ⊔ s.box = e.box ⊔ a) : IsLUB (boxesOf (l ++ n :: l' ++ [s])) (b ⊔ a) := by
  have hset : boxesOf (l ++ n :: l' ++ [s]) = ({n.box} ∪ {s.box}) ∪ boxesOf (l ++ l') := by
    rw [boxesOf_append, boxesOf_singleton, boxesOf_middle, Set.union_right_comm]
  rw [boxesOf_middle] at h
  rw [hset]
  refine isLUB_grow h ?_
  rw [← he]
  exact isLUB_singleton.union isLUB_singleton

theorem collectAll_eq (l : List Entry) : collectAll l = l.flatMap collectLeaves := by
  induction l with
  | nil => rfl
  | cons c l ih => rw [collectAll, ih, List.flatMap_cons]

theorem collectAll_append : collectAll (l ++ l') = collectAll l ++ collectAll l' := by
  rw [collectAll_eq, collectAll_eq, collectAll_eq, List.flatMap_append]

theorem collectAll_perm (h : l.Perm l') : (collectAll l).Perm (collectAll l') := by
  rw [collectAll_eq, collectAll_eq]
  exact h.flatMap_right _

theorem collectLeaves_inner (h : e.isLeaf = false) : collectLeaves e = collectAll e.children := by
  cases e with
  | leaf l => cases h
  | inner box children height => rw [collectLeaves]; rfl

/-- A node's leaves are in its box. -/
theorem Level.box_le {k : Nat} (h : Level k e) : ∀ l ∈ collectLeaves e, l.box ≤ e.box := by
  induction k generalizing e with
  | zero =>
    cases e with
    | leaf l =>
      intro l' hl
      rw [collectLeaves, List.mem_singleton] at hl
      rw [hl]
      exact le_refl l.box
    | inner box children height => cases h
  | succ k ih =>
    intro l hl
    rw [collectLeaves_inner h.1.inner, collectAll_eq] at hl
    obtain ⟨c, hc, hl⟩ := List.mem_flatMap.mp hl
    have haround := h.1.around (List.ne_nil_of_mem hc)
    exact (ih (h.1.below c hc) l hl).trans (haround.1 (mem_boxesOf hc))

end Around

/-! ### Splits -/

section Splits

variable {α : Type} {f : α → ℚ} {l : List α} {x : α}

theorem worse_cases (acc : Option α) (a : α) : worse f acc a = acc ∨ worse f acc a = some a := by
  cases acc with
  | none => exact .inr rfl
  | some b =>
    rw [worse]
    split
    · exact .inr rfl
    · exact .inl rfl

theorem worst_mem (h : worst f l = some x) : x ∈ l := by
  have hacc : ∀ acc, l.foldl (worse f) acc = some x → acc = some x ∨ x ∈ l := by
    clear h
    induction l with
    | nil => exact fun acc h => .inl h
    | cons a l ih =>
      intro acc h
      obtain h | h := ih _ h
      · obtain heq | heq := worse_cases (f := f) acc a
        · exact .inl (heq ▸ h)
        · rw [heq] at h
          cases h
          exact .inr List.mem_cons_self
      · exact .inr (List.mem_cons_of_mem _ h)
  exact (hacc none h).resolve_left nofun

theorem isSome_foldl_worse {acc : Option α} (h : acc.isSome) : (l.foldl (worse f) acc).isSome := by
  induction l generalizing acc with
  | nil => exact h
  | cons a l ih =>
    refine ih ?_
    obtain heq | heq := worse_cases (f := f) acc a
    · rwa [heq]
    · rw [heq]
      rfl

theorem worst_isSome (h : l ≠ []) : (worst f l).isSome := by
  cases l with
  | nil => exact absurd rfl h
  | cons a l =>
    rw [worst, List.foldl_cons]
    exact isSome_foldl_worse rfl

theorem seeds_lt {entries : List Entry} (h : 2 ≤ entries.length) :
    (seeds entries).1 < (seeds entries).2 ∧ (seeds entries).2 < entries.length := by
  rw [seeds]
  cases hworst : worst (fun p => waste entries p.1 p.2) (pairs entries.length) with
  | none => exact ⟨Nat.zero_lt_one, h⟩
  | some p =>
    have hmem := worst_mem hworst
    rw [pairs] at hmem
    obtain ⟨i, -, hmem⟩ := List.mem_flatMap.mp hmem
    obtain ⟨j, hj, rfl⟩ := List.mem_map.mp hmem
    rw [List.mem_filter, List.mem_range, decide_eq_true_eq] at hj
    exact ⟨hj.2, hj.1⟩

/-- The entry that is picked is one of the rest. -/
theorem pick_lt {a b : Group} {rest : List Entry} (h : rest ≠ []) :
    pick a b rest < rest.length := by
  rw [pick]
  have hsome : (worst (fun p : Entry × Nat => preference a b p.1) rest.zipIdx).isSome :=
    worst_isSome fun hnil => h (List.zipIdx_eq_nil_iff.mp hnil)
  obtain ⟨p, hp⟩ := Option.isSome_iff_exists.mp hsome
  rw [hp, Option.map_some, Option.getD_some]
  exact List.snd_lt_of_mem_zipIdx (worst_mem hp)

/-- A group with its entries' box around it. -/
def Group.Around (g : Group) : Prop :=
  IsLUB (boxesOf g.entries) g.box

theorem Group.Around.push {g : Group} (h : g.Around) (e : Entry) : (g.push e).Around := by
  rw [Group.Around, Group.push]
  dsimp only
  rw [boxesOf_append, boxesOf_singleton]
  exact h.union isLUB_singleton

theorem Group.Around.pushAll {g : Group} (h : g.Around) (l : List Entry) :
    (l.foldl Group.push g).Around ∧ (l.foldl Group.push g).entries = g.entries ++ l := by
  induction l generalizing g with
  | nil => exact ⟨h, (List.append_nil _).symm⟩
  | cons e l ih =>
    obtain ⟨haround, hentries⟩ := ih (h.push e)
    refine ⟨haround, hentries.trans ?_⟩
    rw [Group.push, List.append_assoc]
    rfl

/-- Two groups that share some entries out, at least four to each. -/
structure Dealt (entries : List Entry) (r : Group × Group) : Prop where
  left : r.1.Around
  right : r.2.Around
  perm : (r.1.entries ++ r.2.entries).Perm entries
  fewLeft : minEntries ≤ r.1.entries.length
  fewRight : minEntries ≤ r.2.entries.length

theorem Dealt.of_perm {l l' : List Entry} {r : Group × Group} (h : Dealt l r) (hl : l.Perm l') :
    Dealt l' r :=
  ⟨h.left, h.right, h.perm.trans hl, h.fewLeft, h.fewRight⟩

theorem dealt_distribute {n : Nat} {a b : Group} {rest : List Entry} (hn : rest.length = n)
    (ha : a.Around) (hb : b.Around) (hfewa : minEntries ≤ a.entries.length + n)
    (hfewb : minEntries ≤ b.entries.length + n)
    (hmany : minEntries + minEntries ≤ a.entries.length + b.entries.length + n) :
    Dealt (a.entries ++ b.entries ++ rest) (distribute n a b rest) := by
  induction n generalizing a b rest with
  | zero =>
    rw [List.length_eq_zero_iff.mp hn, List.append_nil]
    exact ⟨ha, hb, List.Perm.refl _, hfewa, hfewb⟩
  | succ n ih =>
    rw [distribute, hn]
    split
    · next hall =>
      -- The first group takes the rest: the other has enough already.
      obtain ⟨haround, hentries⟩ := ha.pushAll rest
      have hfew : minEntries ≤ b.entries.length := by omega
      refine ⟨haround, hb, ?_, ?_, hfew⟩
      · rw [hentries, List.append_assoc, List.append_assoc]
        exact List.perm_append_comm.append_left a.entries
      · rw [hentries, List.length_append, hn, hall]
    · split
      · next hall =>
        obtain ⟨haround, hentries⟩ := hb.pushAll rest
        have hfew : minEntries ≤ a.entries.length := by omega
        refine ⟨ha, haround, ?_, hfew, ?_⟩
        · rw [hentries, List.append_assoc]
        · rw [hentries, List.length_append, hn, hall]
      · have hlt : pick a b rest < rest.length :=
          pick_lt (List.ne_nil_of_length_eq_add_one hn)
        rw [List.getElem?_eq_getElem hlt]
        dsimp only
        have hleft : (rest.eraseIdx (pick a b rest)).length = n := by
          rw [List.length_eraseIdx_of_lt hlt, hn, Nat.add_sub_cancel]
        have hperm := List.getElem_cons_eraseIdx_perm hlt
        split
        · refine (ih hleft (ha.push _) hb ?_ (by omega) ?_).of_perm ?_
          · rw [Group.push, List.length_append, List.length_singleton]
            omega
          · rw [Group.push, List.length_append, List.length_singleton]
            omega
          · rw [Group.push]
            dsimp only
            refine List.Perm.trans ?_ (hperm.append_left (a.entries ++ b.entries))
            rw [List.append_assoc, List.append_assoc, List.append_assoc]
            refine List.Perm.append_left a.entries ?_
            rw [List.singleton_append]
            exact List.perm_middle.symm
        · refine (ih hleft ha (hb.push _) (by omega) ?_ ?_).of_perm ?_
          · rw [Group.push, List.length_append, List.length_singleton]
            omega
          · rw [Group.push, List.length_append, List.length_singleton]
            omega
          · rw [Group.push]
            dsimp only
            rw [← List.append_assoc, List.append_assoc]
            exact hperm.append_left (a.entries ++ b.entries)

/-- **A split** deals the entries out. -/
theorem dealt_split {entries : List Entry} (h : minEntries + minEntries ≤ entries.length) :
    Dealt entries (split entries) := by
  obtain ⟨hlt, hlast⟩ := seeds_lt (le_trans (by decide) h)
  rw [split]
  cases hseeds : seeds entries with
  | mk i j =>
    rw [hseeds] at hlt hlast
    dsimp only at hlt hlast ⊢
    have hfirst := hlt.trans hlast
    have hpos : i < (entries.eraseIdx j).length := by
      rw [List.length_eraseIdx_of_lt hlast]
      omega
    have hsame : (entries.eraseIdx j)[i] = entries[i] := List.getElem_eraseIdx_of_lt hpos hlt
    have hlength : ((entries.eraseIdx j).eraseIdx i).length = entries.length - 2 := by
      rw [List.length_eraseIdx_of_lt hpos, List.length_eraseIdx_of_lt hlast, Nat.sub_sub]
    have hone : ∀ e : Entry, Group.Around ⟨[e], e.box⟩ := by
      intro e
      rw [Group.Around, boxesOf_singleton]
      exact isLUB_singleton
    rw [List.getElem?_eq_getElem hfirst, List.getElem?_eq_getElem hlast]
    have hfew : minEntries + minEntries ≤ 1 + 1 + (entries.length - 2) := by
      have htwo : 2 ≤ minEntries + minEntries := by decide
      omega
    have hfour : minEntries ≤ 1 + (entries.length - 2) := by
      have hmin : minEntries = 4 := rfl
      omega
    refine (dealt_distribute rfl (hone _) (hone _) ?_ ?_ ?_).of_perm ?_
    · rw [hlength]
      exact hfour
    · rw [hlength]
      exact hfour
    · rw [hlength]
      exact hfew
    · have hi := List.getElem_cons_eraseIdx_perm hpos
      have hj := List.getElem_cons_eraseIdx_perm hlast
      rw [hsame] at hi
      exact (List.Perm.swap _ _ _).trans ((hi.cons _).trans hj)

end Splits

/-! ### Insertions -/

/-- The box around a node and one more: around that one alone where the node is empty. -/
def Entry.over (e : Entry) (b : Box) : Box :=
  if e.children = [] then b else e.box ⊔ b

/-- What an insertion leaves: a node, or two where there were too many children for one, with the
leaves and the box that are asked for. -/
inductive Inserted (P : Entry → Prop) (k : Nat) (leaves : List Leaf) (b : Box) (least : Nat) :
    Entry × Option Entry → Prop where
  | kept {n : Entry} (hnode : IsNode P k n) (hleaves : (collectLeaves n).Perm leaves)
    (hbox : n.box = b) (hleast : least ≤ n.children.length) : Inserted P k leaves b least (n, none)
  | split {n s : Entry} (hnode : IsNode P k n) (hsibling : IsNode P k s)
    (hleaves : (collectLeaves n ++ collectLeaves s).Perm leaves) (hbox : n.box ⊔ s.box = b)
    (hfewNode : minEntries ≤ n.children.length) (hfewSibling : minEntries ≤ s.children.length) :
    Inserted P k leaves b least (n, some s)

section Insertions

variable {P : Entry → Prop} {k least : Nat} {leaves : List Leaf} {b : Box} {children : List Entry}
  {leaf : Leaf} {e c : Entry}

theorem inserted_overflow (haround : IsLUB (boxesOf children) b)
    (hmost : children.length ≤ maxEntries + 1) (hbelow : ∀ c ∈ children, P c)
    (hleaves : (collectAll children).Perm leaves) (hleast : least ≤ children.length) :
    Inserted P k leaves b least (overflow b children (k + 1)) := by
  rw [overflow]
  split
  · next hfits =>
    refine .kept ⟨rfl, rfl, fun _ => haround, hfits, hbelow⟩ ?_ rfl hleast
    rwa [collectLeaves]
  · next hfull =>
    have hlength : children.length = minEntries + minEntries + 2 :=
      le_antisymm hmost (not_le.mp hfull)
    have hmany : minEntries + minEntries ≤ children.length := by omega
    obtain ⟨hleft, hright, hperm, hfewLeft, hfewRight⟩ := dealt_split hmany
    have hsum := hperm.length_eq
    rw [List.length_append] at hsum
    have hmax : maxEntries = 9 := rfl
    have hmin : minEntries = 4 := rfl
    refine .split ⟨rfl, rfl, fun _ => hleft, ?_, fun c hc => hbelow c ?_⟩
      ⟨rfl, rfl, fun _ => hright, ?_, fun c hc => hbelow c ?_⟩ ?_ ?_ hfewLeft hfewRight
    · change (split children).1.entries.length ≤ maxEntries
      omega
    · exact hperm.mem_iff.mp (List.mem_append_left _ hc)
    · change (split children).2.entries.length ≤ maxEntries
      omega
    · exact hperm.mem_iff.mp (List.mem_append_right _ hc)
    · rw [collectLeaves, collectLeaves, ← collectAll_append]
      exact (collectAll_perm hperm).trans hleaves
    · have hboth := hleft.union hright
      rw [← boxesOf_append, boxesOf_perm hperm] at hboth
      exact hboth.unique haround

theorem bestFrom_spec {cs : List Entry} (stored : Box) (i : Nat) (acc : Option (Nat × ℚ × ℚ))
    (h : ∀ c ∈ cs, c.isLeaf = false) (hsome : acc.isSome ∨ cs ≠ []) :
    ∃ r, bestFrom stored i acc cs = some r ∧
      (acc = some r ∨ i ≤ r.1 ∧ r.1 < i + cs.length) := by
  induction cs generalizing i acc with
  | nil =>
    obtain ⟨r, hr⟩ := Option.isSome_iff_exists.mp (hsome.resolve_right fun hne => hne rfl)
    exact ⟨r, by rw [bestFrom, hr], .inl hr⟩
  | cons c cs ih =>
    rw [bestFrom, List.length_cons]
    have hnode := h c List.mem_cons_self
    have hrest : ∀ d ∈ cs, d.isLeaf = false := fun d hd => h d (List.mem_cons_of_mem _ hd)
    split
    · obtain ⟨r, hr, hplace⟩ := ih (i + 1) (some (i, enlargement c.box stored, area c.box)) hrest
        (.inl rfl)
      refine ⟨r, hr, .inr ?_⟩
      obtain heq | hplace := hplace
      · cases heq
        exact ⟨le_refl i, by omega⟩
      · exact ⟨by omega, by omega⟩
    · next hnot =>
      cases acc with
      | none => exact absurd ⟨by rw [hnode]; rfl, rfl⟩ hnot
      | some r₀ =>
        obtain ⟨r, hr, hplace⟩ := ih (i + 1) (some r₀) hrest (.inl rfl)
        refine ⟨r, hr, ?_⟩
        obtain heq | hplace := hplace
        · exact .inl heq
        · exact .inr ⟨by omega, by omega⟩

/-- There is a best child among nodes. -/
theorem best_spec (stored : Box) (h : ∀ c ∈ children, c.isLeaf = false) (hne : children ≠ []) :
    ∃ i, best stored children = some i ∧ i < children.length := by
  obtain ⟨r, hr, hplace⟩ := bestFrom_spec stored 0 none h (.inr hne)
  refine ⟨r.1, by rw [best, hr, Option.map_some], ?_⟩
  obtain hnone | hplace := hplace
  · cases hnone
  · omega

/-- A leaf goes into the child at a place. -/
theorem insertAt_eq {pre post : List Entry} :
    insertAt leaf pre.length (pre ++ c :: post) =
      (pre ++ (insertInto leaf c).1 :: post, (insertInto leaf c).2) := by
  induction pre with
  | nil => rw [List.nil_append, List.length_nil, insertAt]; rfl
  | cons d pre ih => rw [List.cons_append, List.length_cons, insertAt, ih]; rfl

theorem over_of_ne (h : e.children ≠ []) : e.over b = e.box ⊔ b :=
  if_neg h

theorem inserted_addLeaf (leaf : Leaf) (h : IsNode (Level 0) 0 e) : Inserted (Level 0) 0 (leaf :: collectLeaves e)
    (e.over leaf.box) e.children.length (addLeaf leaf e.box e.children e.height) := by
  rw [addLeaf, h.height]
  have hbox : (if (e.children ++ [Entry.leaf leaf]).length = 1 then leaf.box
      else union e.box leaf.box) = e.over leaf.box := by
    rw [Entry.over, List.length_append, List.length_singleton]
    by_cases hnil : e.children = []
    · rw [if_pos hnil, hnil]
      rfl
    · have hlength := List.length_pos_of_ne_nil hnil
      rw [if_neg hnil, if_neg (by omega), union_eq_sup]
  rw [hbox]
  refine inserted_overflow ?_ ?_ ?_ ?_ ?_
  · rw [boxesOf_append, boxesOf_singleton, Entry.over]
    split
    · next hempty =>
      have hnone : boxesOf [] = ∅ := Set.eq_empty_of_forall_notMem fun _ hb => nomatch hb
      rw [hempty, hnone, Set.empty_union]
      exact isLUB_singleton
    · next hne => exact (h.around hne).union isLUB_singleton
  · rw [List.length_append, List.length_singleton]
    exact Nat.succ_le_succ h.most
  · intro c hc
    obtain hc | hc := List.mem_append.mp hc
    · exact h.below c hc
    · rw [List.mem_singleton.mp hc]
      rfl
  · rw [collectAll_append, collectLeaves_inner h.inner, collectAll, collectAll, collectLeaves,
      List.append_nil]
    exact List.perm_append_comm
  · rw [List.length_append]
    exact Nat.le_add_right _ _

theorem collectAll_middle {pre post : List Entry} :
    (collectAll (pre ++ c :: post)).Perm (collectLeaves c ++ collectAll (pre ++ post)) := by
  refine (collectAll_perm List.perm_middle).trans ?_
  rw [collectAll]

/-- A child with a leaf more, among the others. -/
theorem collectAll_replace {pre post : List Entry} {n : Entry}
    (h : (collectLeaves n).Perm (leaf :: collectLeaves c)) :
    (collectAll (pre ++ n :: post)).Perm (leaf :: collectAll (pre ++ c :: post)) :=
  collectAll_middle.trans ((h.append_right _).trans (collectAll_middle.symm.cons leaf))

/-- Where an insertion goes on, in a node over nodes. -/
theorem insertInto_inner {box : Box} {height : Nat} {pre post : List Entry} (hheight : 1 < height)
    (hbest : best leaf.box (pre ++ c :: post) = some pre.length) :
    insertInto leaf (.inner box (pre ++ c :: post) height) =
      match insertInto leaf c with
      | (n, none) => (.inner (union box leaf.box) (pre ++ n :: post) height, none)
      | (n, some s) => overflow (boxOf (pre ++ n :: post ++ [s])) (pre ++ n :: post ++ [s]) height := by
  rw [insertInto, if_neg (not_le.mpr hheight), hbest]
  dsimp only
  rw [insertAt_eq]
  cases insertInto leaf c with
  | mk n sibling =>
    cases sibling with
    | none => rfl
    | some s => rfl

/-- **An insertion** beneath a node adds its leaf and its box, and splits what is too full. -/
theorem inserted_insertInto (leaf : Leaf) (h : IsNode (Level k) k e) (hne : 0 < k → e.children ≠ []) :
    Inserted (Level k) k (leaf :: collectLeaves e) (e.over leaf.box) e.children.length
      (insertInto leaf e) := by
  induction k generalizing e with
  | zero =>
    have hadd := inserted_addLeaf leaf h
    obtain ⟨hinner, hheight, -⟩ := h
    cases e with
    | leaf l => cases hinner
    | inner box children height =>
      have hlow : height ≤ 1 := le_of_eq hheight
      have hinto : insertInto leaf (.inner box children height) =
          addLeaf leaf box children height := by
        rw [insertInto]
        exact if_pos hlow
      rw [hinto]
      exact hadd
  | succ k ih =>
    have hover := over_of_ne (b := leaf.box) (hne (Nat.succ_pos k))
    obtain ⟨hinner, hheight, haround, hmost, hbelow⟩ := h
    cases e with
    | leaf l => cases hinner
    | inner box children height =>
      have hnonempty : children ≠ [] := hne (Nat.succ_pos k)
      have hrank : height = k + 1 + 1 := hheight
      have hlub : IsLUB (boxesOf children) box := haround hnonempty
      have hmost : children.length ≤ maxEntries := hmost
      have hbelow : ∀ c ∈ children, Level (k + 1) c := hbelow
      rw [hover, collectLeaves]
      change Inserted _ _ _ (box ⊔ leaf.box) children.length _
      obtain ⟨i, hbest, hi⟩ := best_spec leaf.box
        (fun c hc => (hbelow c hc).1.inner) hnonempty
      obtain ⟨pre, c, post, rfl, rfl⟩ : ∃ pre c post, children = pre ++ c :: post ∧
          i = pre.length := by
        refine ⟨children.take i, children[i], children.drop (i + 1), ?_, ?_⟩
        · rw [List.getElem_cons_drop, List.take_append_drop]
        · rw [List.length_take, Nat.min_eq_left hi.le]
      have hchild := hbelow c (List.mem_append_right _ List.mem_cons_self)
      have hmany : c.children ≠ [] := by
        intro hnil
        have hfew := hchild.2
        rw [hnil] at hfew
        exact absurd hfew (by decide)
      have hothers : ∀ n, Level (k + 1) n → ∀ d ∈ pre ++ n :: post, Level (k + 1) d := by
        intro n hn d hd
        obtain hd | hd := List.mem_append.mp hd
        · exact hbelow d (List.mem_append_left _ hd)
        · obtain rfl | hd := List.mem_cons.mp hd
          · exact hn
          · exact hbelow d (List.mem_append_right _ (List.mem_cons_of_mem _ hd))
      have hlength : ∀ n : Entry, (pre ++ n :: post).length = (pre ++ c :: post).length := by
        intro n
        rw [List.length_append, List.length_append, List.length_cons, List.length_cons]
      have hthere := ih hchild.1 fun _ => hmany
      rw [over_of_ne hmany] at hthere
      rw [insertInto_inner (by omega) hbest]
      cases hr : insertInto leaf c with
      | mk n sibling =>
        rw [hr] at hthere
        cases hthere with
        | kept hnode hleaves hbox hleast =>
          refine .kept ⟨rfl, hheight, fun _ => isLUB_replace hlub hbox, ?_,
            hothers n ⟨hnode, hchild.2.trans hleast⟩⟩ ?_ rfl ?_
          · exact (hlength n).trans_le hmost
          · rw [collectLeaves]
            exact collectAll_replace hleaves
          · exact (hlength n).ge
        | @split _ s hnode hsibling hleaves hbox hfewNode hfewSibling =>
          have hnew := isLUB_replace_two hlub hbox
          have hfull : pre ++ n :: post ++ [s] ≠ [] := List.append_ne_nil_of_right_ne_nil _ (by simp)
          have hsame : boxOf (pre ++ n :: post ++ [s]) = box ⊔ leaf.box :=
            (isLUB_boxOf hfull).unique hnew
          dsimp only
          rw [hsame, hrank]
          refine inserted_overflow hnew ?_ ?_ ?_ ?_
          · rw [List.length_append, hlength, List.length_singleton]
            exact Nat.succ_le_succ hmost
          · intro d hd
            obtain hd | hd := List.mem_append.mp hd
            · exact hothers n ⟨hnode, hfewNode⟩ d hd
            · rw [List.mem_singleton.mp hd]
              exact ⟨hsibling, hfewSibling⟩
          · rw [collectAll_append, collectAll, collectAll, List.append_nil]
            refine (collectAll_middle.append_right _).trans ?_
            rw [List.append_assoc]
            refine (List.perm_append_comm.append_left _).trans ?_
            rw [← List.append_assoc]
            exact (hleaves.append_right _).trans (collectAll_middle.symm.cons leaf)
          · have hmore := hlength n
            rw [← hmore]
            exact (List.sublist_append_left _ _).length_le

end Insertions

end Canvas

end LocalSpace
