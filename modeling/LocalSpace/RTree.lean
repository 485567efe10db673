import Mathlib.Data.List.Perm.Basic
import Mathlib.Logic.Function.Basic
import LocalSpace.Boxes

/-!
# The R-tree

`rtree.ts`: a tree of boxes over keys, with between four and nine children to a node. A key is
inserted where the boxes grow least; a full node is split, and a node left with too few children is
dissolved, its leaves inserted again.
-/

namespace LocalSpace

namespace Canvas

def maxEntries : Nat := 9

def minEntries : Nat := 4

structure Leaf where
  box : Box
  key : String

/-- A leaf, or an inner node with its children and its height over them. -/
inductive Entry where
  | leaf (l : Leaf)
  | inner (box : Box) (children : List Entry) (height : Nat)

namespace Entry

def box : Entry → Box
  | leaf l => l.box
  | inner box _ _ => box

def isLeaf : Entry → Bool
  | leaf _ => true
  | inner _ _ _ => false

def children : Entry → List Entry
  | leaf _ => []
  | inner _ children _ => children

def height : Entry → Nat
  | leaf _ => 0
  | inner _ _ height => height

end Entry

/-- The box around some entries. -/
def boxOf : List Entry → Box
  | [] => ⟨0, 0, 0, 0⟩
  | e :: es => es.foldl (fun b c => union b c.box) e.box

mutual

/-- The leaves beneath an entry. -/
@[grind =]
def collectLeaves : Entry → List Leaf
  | .leaf l => [l]
  | .inner _ children _ => collectAll children

@[grind =]
def collectAll : List Entry → List Leaf
  | [] => []
  | c :: cs => collectLeaves c ++ collectAll cs

end

/-! ### Splitting -/

section Split

variable (entries : List Entry)

/-- The pairs of places of a list, the first before the second. -/
def pairs (n : Nat) : List (Nat × Nat) :=
  (List.range n).flatMap fun i => ((List.range n).filter fun j => i < j).map fun j => (i, j)

/-- How much space two entries waste together. -/
def waste (i j : Nat) : ℚ :=
  match entries[i]?, entries[j]? with
  | some a, some b => area (union a.box b.box) - area a.box - area b.box
  | _, _ => 0

/-- The worst so far, and one more. -/
def worse {α : Type} (f : α → ℚ) (acc : Option α) (a : α) : Option α :=
  match acc with
  | none => some a
  | some b => if f b < f a then some a else some b

/-- What is strictly more than everything before it. -/
def worst {α : Type} (f : α → ℚ) (l : List α) : Option α :=
  l.foldl (worse f) none

/-- The two entries that waste the most space together. -/
def seeds : Nat × Nat :=
  (worst (fun p => waste entries p.1 p.2) (pairs entries.length)).getD (0, 1)

end Split

/-- Some entries with the box around them. -/
structure Group where
  entries : List Entry
  box : Box

namespace Group

@[grind =]
def push (g : Group) (e : Entry) : Group :=
  ⟨g.entries ++ [e], union g.box e.box⟩

end Group

/-- How strongly an entry prefers one group. -/
def preference (a b : Group) (e : Entry) : ℚ :=
  |enlargement a.box e.box - enlargement b.box e.box|

/-- The place of the strongest preference. -/
def pick (a b : Group) (rest : List Entry) : Nat :=
  ((worst (fun p => preference a b p.1) rest.zipIdx).map Prod.snd).getD 0

/-- The rest goes to one group or the other, as many entries as there are. -/
def distribute : Nat → Group → Group → List Entry → Group × Group
  | 0, a, b, _ => (a, b)
  | n + 1, a, b, rest =>
    if a.entries.length + rest.length = minEntries then (rest.foldl Group.push a, b)
    else if b.entries.length + rest.length = minEntries then (a, rest.foldl Group.push b)
    else
      match rest[pick a b rest]? with
      | none => (a, b)
      | some e =>
        let left := rest.eraseIdx (pick a b rest)
        let growA := enlargement a.box e.box
        let growB := enlargement b.box e.box
        if growA < growB ∨ growA = growB ∧ a.entries.length ≤ b.entries.length then
          distribute n (a.push e) b left
        else distribute n a (b.push e) left

/-- `split`: the children of a node in two groups. -/
def split (entries : List Entry) : Group × Group :=
  let (i, j) := seeds entries
  match entries[i]?, entries[j]? with
  | some a, some b =>
    let rest := (entries.eraseIdx j).eraseIdx i
    distribute rest.length ⟨[a], a.box⟩ ⟨[b], b.box⟩ rest
  | _, _ => (⟨entries, boxOf entries⟩, ⟨[], boxOf []⟩)

/-- A node, split where it has too many children: with its sibling. -/
def overflow (box : Box) (children : List Entry) (height : Nat) : Entry × Option Entry :=
  if children.length ≤ maxEntries then (.inner box children height, none)
  else
    let (a, b) := split children
    (.inner a.box a.entries height, some (.inner b.box b.entries height))

/-! ### Inserting -/

/-- Whether a child grows less than the best so far, or is smaller and grows the same. -/
def grows (stored : Box) (c : Entry) : Option (Nat × ℚ × ℚ) → Bool
  | none => true
  | some (_, growth, least) =>
    enlargement c.box stored < growth ∨ enlargement c.box stored = growth ∧ area c.box < least

/-- The node that grows least among children: its place, growth and area. -/
def bestFrom (stored : Box) : Nat → Option (Nat × ℚ × ℚ) → List Entry → Option (Nat × ℚ × ℚ)
  | _, acc, [] => acc
  | i, acc, c :: cs =>
    bestFrom stored (i + 1)
      (if !c.isLeaf ∧ grows stored c acc then some (i, enlargement c.box stored, area c.box)
        else acc) cs

def best (stored : Box) (children : List Entry) : Option Nat :=
  (bestFrom stored 0 none children).map Prod.fst

/-- A leaf among a node's children. -/
def addLeaf (leaf : Leaf) (box : Box) (children : List Entry) (height : Nat) :
    Entry × Option Entry :=
  let children := children ++ [.leaf leaf]
  overflow (if children.length = 1 then leaf.box else union box leaf.box) children height

mutual

/-- A leaf beneath a node: the node afterwards, and its sibling where it was split. -/
def insertInto (leaf : Leaf) : Entry → Entry × Option Entry
  | .leaf l => (.leaf l, none)
  | .inner box children height =>
    if height ≤ 1 then addLeaf leaf box children height
    else match best leaf.box children with
      | none => addLeaf leaf box children height
      | some i =>
        match insertAt leaf i children with
        | (children, none) => (.inner (union box leaf.box) children height, none)
        | (children, some sibling) =>
          overflow (boxOf (children ++ [sibling])) (children ++ [sibling]) height

def insertAt (leaf : Leaf) : Nat → List Entry → List Entry × Option Entry
  | _, [] => ([], none)
  | 0, c :: cs => ((insertInto leaf c).1 :: cs, (insertInto leaf c).2)
  | i + 1, c :: cs => (c :: (insertAt leaf i cs).1, (insertAt leaf i cs).2)

end

/-- A root that was split has a new root over it. -/
def grow : Entry × Option Entry → Entry
  | (node, none) => node
  | (node, some sibling) =>
    .inner (union node.box sibling.box) [node, sibling] (node.height + 1)

/-! ### Removing -/

mutual

/-- A key out of a node: the node without it, and the leaves of what is dissolved. -/
def removeFrom (key : String) (b : Box) : Entry → Option (Entry × List Leaf)
  | .leaf _ => none
  | .inner box children height =>
    if !intersects box b ∧ !children.isEmpty then none
    else (removeAmong key b children).map fun r =>
      (.inner (if r.1.isEmpty then box else boxOf r.1) r.1 height, r.2)

def removeAmong (key : String) (b : Box) : List Entry → Option (List Entry × List Leaf)
  | [] => none
  | .leaf l :: cs =>
    if l.key = key then some (cs, [])
    else (removeAmong key b cs).map fun r => (.leaf l :: r.1, r.2)
  | .inner box children height :: cs =>
    match removeFrom key b (.inner box children height) with
    | some (c, orphans) =>
      if c.children.length < minEntries then some (cs, orphans ++ collectLeaves c)
      else some (c :: cs, orphans)
    | none => (removeAmong key b cs).map fun r => (.inner box children height :: r.1, r.2)

end

/-- A root with one inner child gives way to it. -/
@[grind =]
def collapse : Entry → Entry
  | .inner _ [.inner box children height] _ => collapse (.inner box children height)
  | e => e

/-- A root after something was removed: it collapses, and has its children's box. -/
@[grind =]
def settle (root : Entry) : Entry :=
  match collapse root with
  | .inner box [] _ => .inner box [] 1
  | .inner _ children height => .inner (boxOf children) children height
  | e => e

/-! ### The tree -/

structure RTree where
  root : Entry
  boxes : String → Option Box

namespace RTree

@[grind =]
def empty : RTree :=
  ⟨.inner ⟨0, 0, 0, 0⟩ [] 1, fun _ => none⟩

variable (t : RTree)

/-- A leaf put into the tree. -/
@[grind =]
def put (key : String) (b : Box) : RTree :=
  ⟨grow (insertInto ⟨b, key⟩ t.root), Function.update t.boxes key (some b)⟩

/-- `insert`, given what `remove` does: a key that is there is moved. -/
def insertWith (remove : RTree → String → RTree × Bool) (t : RTree) (key : String) (b : Box) :
    RTree :=
  if (t.boxes key).isSome then (remove t key).1.put key b else t.put key b

/-- `remove`, given what `insert` does: the leaves of what was dissolved are inserted again. -/
def removeWith (insert : RTree → String → Box → RTree) (t : RTree) (key : String) : RTree × Bool :=
  match t.boxes key with
  | none => (t, false)
  | some b =>
    let boxes := Function.update t.boxes key none
    match removeFrom key b t.root with
    | none => (⟨t.root, boxes⟩, false)
    | some (root, orphans) =>
      (orphans.foldl (fun t o => insert t o.key o.box) ⟨settle root, boxes⟩, true)

/-- `remove`, where re-insertions remove so deep at most. -/
def removeN : Nat → RTree → String → RTree × Bool
  | 0 => removeWith put
  | n + 1 => removeWith (insertWith (removeN n))

/-- A removal leaves fewer leaves in the tree, so that as many as there are is deep enough. -/
def remove (key : String) : RTree × Bool :=
  removeN (collectLeaves t.root).length t key

def insert (key : String) (b : Box) : RTree :=
  insertWith remove t key b

end RTree

mutual

/-- The keys whose boxes overlap a box; the last child is looked at first. -/
def searchIn (b : Box) : Entry → List String
  | .leaf l => if intersects l.box b then [l.key] else []
  | .inner box children _ => if intersects box b then searchAll b children else []

def searchAll (b : Box) : List Entry → List String
  | [] => []
  | c :: cs => searchAll b cs ++ searchIn b c

end

def RTree.search (t : RTree) (b : Box) : List String :=
  searchIn b t.root

end Canvas

end LocalSpace
