import Mathlib.Data.Rat.Floor
import Mathlib.Logic.Function.Basic
import Mathlib.Tactic.Linarith
import LocalSpace.Stacking

/-!
# The canvas and the board's document

A shape or a frame is a node on the canvas and an entry of the document: `fromDoc` reads the nodes,
the replica's `local` writes them. The scene keeps nodes by their ids, lays a label's height out
anew, and loosens the connectors of what is deleted.

The three are compared id by id: setting a node is `Function.update` on each (`get_set`,
`node_put`).
-/

namespace LocalSpace

namespace Canvas

open Whiteboard (Kind)

/-! ### Lists by id -/

section ById

variable {α : Type} (key : α → String)

/-- The first of an id. -/
@[grind =]
def lookup (l : List α) (id : String) : Option α :=
  l.find? fun a => key a = id

/-- The first of an id is written over; where there is none, a new one is put last. -/
@[grind =]
def upsert (id : String) (write : α → α) (new : α) : List α → List α
  | [] => [new]
  | a :: l => if key a = id then write a :: l else a :: upsert id write new l

/-- `removeById`. -/
def removeById (id : String) (l : List α) : List α :=
  l.eraseP fun a => key a = id

variable {key} {id i : String} {write : α → α} {new : α} {l : List α}

theorem lookup_upsert_ne (hnew : key new = id) (hwrite : ∀ a, key a = id → key (write a) = id)
    (h : i ≠ id) :
    lookup key (upsert key id write new l) i = lookup key l i := by
  induction l with
  | nil =>
    rw [upsert, lookup, List.find?_cons_of_neg (by rw [hnew]; simpa using h.symm), lookup]
  | cons a l ih =>
    rw [upsert]
    split
    · next ha =>
      rw [lookup, List.find?_cons_of_neg (by rw [hwrite a ha]; simpa using h.symm), lookup,
        List.find?_cons_of_neg (by rw [ha]; simpa using h.symm)]
    · rw [lookup, List.find?_cons, ← lookup, ih]
      rfl

theorem lookup_upsert_self (hnew : key new = id) (hwrite : ∀ a, key a = id → key (write a) = id) :
    lookup key (upsert key id write new l) id = some ((lookup key l id).elim new write) := by
  induction l with
  | nil => rw [upsert, lookup, List.find?_cons_of_pos (by simpa using hnew)]; rfl
  | cons a l ih =>
    rw [upsert]
    split
    · next ha =>
      rw [lookup, List.find?_cons_of_pos (by simpa using hwrite a ha), lookup,
        List.find?_cons_of_pos (by simpa using ha)]
      rfl
    · next ha =>
      rw [lookup, List.find?_cons_of_neg (by simpa using ha), ← lookup, ih, lookup, lookup,
        List.find?_cons_of_neg (by simpa using ha)]

/-- The ids of a list written to: none is new but the one written. -/
theorem keys_upsert (hnew : key new = id) (hwrite : ∀ a, key a = id → key (write a) = id) :
    (upsert key id write new l).map key =
      if id ∈ l.map key then l.map key else l.map key ++ [id] := by
  induction l with
  | nil => rw [upsert, List.map_singleton, hnew]; rfl
  | cons a l ih =>
    rw [upsert]
    split
    · next ha =>
      rw [List.map_cons, List.map_cons, hwrite a ha, ha, if_pos List.mem_cons_self]
    · next ha =>
      rw [List.map_cons, ih, List.map_cons]
      by_cases hmem : id ∈ l.map key
      · rw [if_pos hmem, if_pos (List.mem_cons_of_mem _ hmem)]
      · rw [if_neg hmem, if_neg (List.not_mem_cons_of_ne_of_not_mem (Ne.symm ha) hmem)]
        rfl

theorem nodup_upsert (hnew : key new = id) (hwrite : ∀ a, key a = id → key (write a) = id)
    (hnodup : (l.map key).Nodup) : ((upsert key id write new l).map key).Nodup := by
  rw [keys_upsert hnew hwrite]
  split
  · exact hnodup
  · next hmem =>
    exact List.nodup_append.mpr ⟨hnodup, List.nodup_singleton id, fun i hi j hj heq =>
      hmem (List.mem_singleton.mp hj ▸ heq ▸ hi)⟩

theorem mem_upsert {a : α} (h : a ∈ upsert key id write new l) :
    a = new ∨ (∃ b ∈ l, a = write b) ∨ a ∈ l := by
  induction l with
  | nil => exact .inl (List.mem_singleton.mp h)
  | cons b l ih =>
    rw [upsert] at h
    split at h
    · obtain rfl | h := List.mem_cons.mp h
      · exact .inr (.inl ⟨b, List.mem_cons_self, rfl⟩)
      · exact .inr (.inr (List.mem_cons_of_mem _ h))
    · obtain rfl | h := List.mem_cons.mp h
      · exact .inr (.inr List.mem_cons_self)
      · obtain h | ⟨c, hc, h⟩ | h := ih h
        · exact .inl h
        · exact .inr (.inl ⟨c, List.mem_cons_of_mem _ hc, h⟩)
        · exact .inr (.inr (List.mem_cons_of_mem _ h))

theorem lookup_eq_some (hnodup : (l.map key).Nodup) {a : α} (ha : a ∈ l) :
    lookup key l (key a) = some a := by
  induction l with
  | nil => cases ha
  | cons b l ih =>
    rw [List.map_cons, List.nodup_cons] at hnodup
    obtain rfl | hmem := List.mem_cons.mp ha
    · exact List.find?_cons_of_pos (by simp)
    · rw [lookup, List.find?_cons_of_neg, ← lookup, ih hnodup.2 hmem]
      simp only [decide_eq_true_eq]
      exact fun heq => hnodup.1 (heq ▸ List.mem_map_of_mem hmem)

theorem lookup_eq_none : lookup key l i = none ↔ i ∉ l.map key := by
  rw [lookup, List.find?_eq_none]
  simp only [decide_eq_true_eq, List.mem_map, not_exists, not_and]

theorem mem_of_lookup {a : α} (h : lookup key l i = some a) : a ∈ l ∧ key a = i :=
  ⟨List.mem_of_find?_eq_some h, by simpa using List.find?_some h⟩

theorem lookup_removeById (hnodup : (l.map key).Nodup) :
    lookup key (removeById key id l) i = if i = id then none else lookup key l i := by
  induction l with
  | nil =>
    split
    · rfl
    · rfl
  | cons a l ih =>
    rw [List.map_cons, List.nodup_cons] at hnodup
    by_cases ha : key a = id
    · rw [removeById, List.eraseP_cons_of_pos (by simpa using ha)]
      split
      · next hi =>
        rw [lookup_eq_none, hi, ← ha]
        exact hnodup.1
      · next hi =>
        rw [lookup, lookup, List.find?_cons_of_neg]
        rw [ha]
        simpa using Ne.symm hi
    · rw [removeById, List.eraseP_cons_of_neg (by simpa using ha), ← removeById]
      by_cases hi : key a = i
      · rw [if_neg (fun heq => ha (hi.trans heq)), lookup, lookup,
          List.find?_cons_of_pos (by simpa using hi), List.find?_cons_of_pos (by simpa using hi)]
      · rw [lookup, List.find?_cons_of_neg (by simpa using hi), ← lookup, ih hnodup.2, lookup,
          lookup, List.find?_cons_of_neg (by simpa using hi)]

end ById

/-! ### Nodes -/

inductive Fill where
  | red | amber | green | blue | yellow | grey | none
  deriving DecidableEq

def Fill.label : Fill → String
  | red => "red"
  | amber => "amber"
  | green => "green"
  | blue => "blue"
  | yellow => "yellow"
  | grey => "grey"
  | none => "none"

@[grind =]
def Fill.all : List Fill :=
  [red, amber, green, blue, yellow, grey, none]

abbrev Point := ℚ × ℚ

/-- A node: what is absent and what is null are one, as `sameNode` reads them. -/
structure Node where
  id : String
  kind : Kind
  x : ℚ
  y : ℚ
  w : ℚ
  h : ℚ
  fill : Fill
  text : String
  frame : Option String
  z : ℚ
  locked : Bool
  size : Option ℚ
  fromId : Option String
  toId : Option String
  startAt : Option Point
  endAt : Option Point
  points : List Point
  name : Option String
  deriving DecidableEq

/-- Every field is compared. -/
def sameNode (a b : Node) : Bool :=
  a = b

def defaultFill : Kind → Fill
  | .sticky => .yellow
  | .text => .none
  | .ink => .blue
  | .frame => .none
  | _ => .grey

/-- `DEFAULTS`' widths and heights. -/
def defaultSize : Kind → ℚ × ℚ
  | .sticky => (196, 108)
  | .text => (120, 26)
  | .arrow | .ink => (0, 0)
  | .frame => (600, 420)
  | _ => (160, 90)

/-! ### The document -/

/-- A shape as the replica's document holds it, as `plain` reads its texts and ends. -/
structure Shape where
  id : String
  kind : String
  x : ℚ
  y : ℚ
  w : ℚ
  h : ℚ
  fill : Option String
  text : Option String
  frame : Option String
  z : Option ℚ
  locked : Option Bool
  size : Option ℚ
  fromId : Option String
  toId : Option String
  startAt : Option Point
  endAt : Option Point
  points : Option (List Point)

structure Frame where
  id : String
  name : Option String
  x : ℚ
  y : ℚ
  w : ℚ
  h : ℚ

structure Board where
  frames : List Frame
  shapes : List Shape
  selection : List String

def fillOf (v : Option String) (d : Fill) : Fill :=
  (Fill.all.find? fun f => v = some f.label).getD d

/-- The least a kind's width and height are read as. -/
def least (kind : Kind) : ℚ :=
  if kind = .arrow ∨ kind = .ink then 0 else 1

def frameNode (f : Frame) : Node where
  id := f.id
  kind := .frame
  x := f.x
  y := f.y
  w := max 1 f.w
  h := max 1 f.h
  fill := .none
  text := ""
  frame := none
  z := -1
  locked := false
  size := none
  fromId := none
  toId := none
  startAt := none
  endAt := none
  points := []
  name := some (f.name.getD "Frame")

/-- A shape as a node; an unknown kind is dropped. -/
def nodeOf (s : Shape) : Option Node :=
  (Kind.ofLabel s.kind).map fun kind => {
    id := s.id
    kind
    x := s.x
    y := s.y
    w := max (least kind) s.w
    h := max (least kind) s.h
    fill := fillOf s.fill (defaultFill kind)
    text := s.text.getD ""
    frame := s.frame
    z := s.z.getD 0
    locked := s.locked = some true
    size := if kind = .text then some (s.size.getD 16) else none
    fromId := if kind = .arrow then s.fromId else none
    toId := if kind = .arrow then s.toId else none
    startAt := if kind = .arrow then s.startAt else none
    endAt := if kind = .arrow then s.endAt else none
    points := if kind = .ink then s.points.getD [] else []
    name := none }

/-- The document's shapes and frames as nodes. -/
@[grind =]
def fromDoc (doc : Board) : List Node :=
  doc.frames.map frameNode ++ doc.shapes.filterMap nodeOf

/-- The node of an id, as the document holds it. -/
@[grind =]
def Board.node (doc : Board) (id : String) : Option Node :=
  ((lookup Frame.id doc.frames id).map frameNode).or ((lookup Shape.id doc.shapes id).bind nodeOf)

/-! ### The replica's writing -/

/-- What is not empty. -/
def truthy (id : Option String) : Option String :=
  id.filter (· ≠ "")

def frameOf (n : Node) : Frame :=
  ⟨n.id, some (n.name.getD "Frame"), n.x, n.y, n.w, n.h⟩

def writeFrame (n : Node) (f : Frame) : Frame :=
  { f with name := some (n.name.getD "Frame"), x := n.x, y := n.y, w := n.w, h := n.h }

@[grind =]
def shapeOf (n : Node) : Shape where
  id := n.id
  kind := n.kind.label
  x := n.x
  y := n.y
  w := n.w
  h := n.h
  fill := some n.fill.label
  text := some n.text
  frame := truthy n.frame
  z := some n.z
  locked := some n.locked
  size := if n.kind = .text then some (n.size.getD 16) else none
  fromId := if n.kind = .arrow then truthy n.fromId else none
  toId := if n.kind = .arrow then truthy n.toId else none
  startAt := if n.kind = .arrow then n.startAt else none
  endAt := if n.kind = .arrow then n.endAt else none
  points := if n.kind = .ink then some n.points else none

/-- What differs is written: a field has the node's value afterwards. -/
@[grind =]
def writeShape (n : Node) (s : Shape) : Shape :=
  { s with
    kind := n.kind.label
    x := n.x
    y := n.y
    w := n.w
    h := n.h
    fill := some n.fill.label
    text := some n.text
    frame := if s.frame = n.frame then s.frame else truthy n.frame
    z := some n.z
    locked := some n.locked
    size := if n.kind = .text then some (n.size.getD 16) else s.size
    fromId := if n.kind = .arrow ∧ s.fromId ≠ n.fromId then truthy n.fromId else s.fromId
    toId := if n.kind = .arrow ∧ s.toId ≠ n.toId then truthy n.toId else s.toId
    startAt := if n.kind = .arrow then n.startAt else s.startAt
    endAt := if n.kind = .arrow then n.endAt else s.endAt
    points := if n.kind = .ink then some n.points else s.points }

namespace Board

/-- A node written into the document. -/
@[grind =]
def put (doc : Board) (n : Node) : Board :=
  if n.kind = .frame then
    { doc with frames := upsert Frame.id n.id (writeFrame n) (frameOf n) doc.frames }
  else { doc with shapes := upsert Shape.id n.id (writeShape n) (shapeOf n) doc.shapes }

def remove (doc : Board) (id : String) : Board :=
  { doc with
    shapes := removeById Shape.id id doc.shapes
    frames := removeById Frame.id id doc.frames }

end Board

/-! ### The scene -/

/-- What the canvas measures: how high a text is laid out, with its padding, at a size and in a
width; and where an arrow starts and ends among the other nodes. -/
structure Measure where
  height : String → ℚ → ℚ → ℚ
  one_le_height : ∀ text size width, 1 ≤ height text size width
  endpoints : List Node → Node → Point × Point

/-- A label with its height as it is laid out. -/
@[grind =]
def laid (M : Measure) (n : Node) : Node :=
  if n.kind = .text then { n with h := M.height n.text (n.size.getD 16) (max 8 (n.w - 16)) } else n

/-- An arrow with an end at a shape. -/
def Attached (n : Node) (id : String) : Prop :=
  n.kind = .arrow ∧ id ≠ "" ∧ (n.fromId = some id ∨ n.toId = some id)

instance (n : Node) (id : String) : Decidable (Attached n id) :=
  inferInstanceAs (Decidable (_ ∧ _))

namespace Scene

@[grind =]
def get (scene : List Node) (id : String) : Option Node :=
  lookup Node.id scene id

/-- `Map.set`. -/
def keep (scene : List Node) (n : Node) : List Node :=
  upsert Node.id n.id (fun _ => n) n scene

variable (M : Measure)

/-- `Scene.set`. -/
@[grind =]
def set (scene : List Node) (n : Node) : List Node :=
  keep scene (laid M n)

/-- An arrow whose end is going keeps pointing where the shape was. -/
def loosen (scene : List Node) (id : String) (arrow : Node) : Node :=
  let ends := M.endpoints scene arrow
  { arrow with
    fromId := if arrow.fromId = some id then none else arrow.fromId
    startAt := if arrow.fromId = some id then some ends.1 else arrow.startAt
    toId := if arrow.toId = some id then none else arrow.toId
    endAt := if arrow.toId = some id then some ends.2 else arrow.endAt }

/-- `Scene.delete`. -/
@[grind =]
def delete (scene : List Node) (id : String) : List Node :=
  match get scene id with
  | none => scene
  | some _ =>
    ((scene.filter fun n => Attached n id).map (loosen M scene id)).foldl (set M)
      (scene.filter fun n => n.id ≠ id)

/-- Every node, bottom to top. -/
@[grind =]
def all (scene : List Node) : List Node :=
  scene.mergeSort fun a b => a.z < b.z ∨ a.z = b.z ∧ a.id ≤ b.id

/-- The topmost frame that holds a point. -/
def frameAt (scene : List Node) (p : Point) : Option String :=
  let frames := (all scene).filter fun n => n.kind = .frame ∧
    n.x < p.1 + 1 ∧ p.1 < n.x + n.w ∧ n.y < p.2 + 1 ∧ p.2 < n.y + n.h
  (frames.getLast?.filter fun n =>
    n.x ≤ p.1 ∧ p.1 ≤ n.x + n.w ∧ n.y ≤ p.2 ∧ p.2 ≤ n.y + n.h).map Node.id

/-- `Editor.nextZ`. -/
def nextZ (scene : List Node) (kind : Kind) : ℚ :=
  if kind = .frame then -1
  else ((all scene).filter fun n => n.kind ≠ .frame).foldl
    (fun top n => if top < n.z then n.z else top) 0 + 1

end Scene

/-! ### What is written is read -/

/-- A node as the document can hold it. -/
structure Node.Proper (n : Node) : Prop where
  wide : least n.kind ≤ n.w
  high : least n.kind ≤ n.h
  frame : n.kind = .frame →
    n.fill = .none ∧ n.text = "" ∧ n.frame = none ∧ n.z = -1 ∧ n.locked = false
  name : n.name.isSome = decide (n.kind = .frame)
  size : n.size.isSome = decide (n.kind = .text)
  ends : n.kind ≠ .arrow → n.fromId = none ∧ n.toId = none ∧ n.startAt = none ∧ n.endAt = none
  points : n.kind ≠ .ink → n.points = []
  named : n.frame ≠ some "" ∧ n.fromId ≠ some "" ∧ n.toId ≠ some ""

/-- A node with no field that the document has no place for. -/
structure Node.Fits (n : Node) : Prop where
  wide : least n.kind ≤ n.w
  high : least n.kind ≤ n.h
  frame : n.kind = .frame →
    n.fill = .none ∧ n.text = "" ∧ n.frame = none ∧ n.z = -1 ∧ n.locked = false
  name : n.name.isSome = decide (n.kind = .frame)
  size : n.size.isSome = decide (n.kind = .text)
  ends : n.kind ≠ .arrow → n.fromId = none ∧ n.toId = none ∧ n.startAt = none ∧ n.endAt = none
  points : n.kind ≠ .ink → n.points = []

theorem Node.Proper.fits {n : Node} (h : n.Proper) : n.Fits :=
  ⟨h.wide, h.high, h.frame, h.name, h.size, h.ends, h.points⟩

theorem fillOf_label (f d : Fill) : fillOf (some f.label) d = f := by
  cases f <;> rfl

theorem ofLabel_label {kind : Kind} (h : kind ≠ .frame) : Kind.ofLabel kind.label = some kind := by
  cases kind with
  | frame => exact absurd rfl h
  | _ => rfl

theorem truthy_of {id : Option String} (h : id ≠ some "") : truthy id = id := by
  cases id with
  | none => rfl
  | some id =>
    rw [truthy, Option.filter_some, if_pos]
    exact decide_eq_true fun heq => h (congrArg some heq)

section RoundTrip

variable {n : Node}

theorem frameNode_of (h : n.Fits) {f : Frame} (hk : n.kind = .frame) (hid : f.id = n.id)
    (hf : f = ⟨f.id, some (n.name.getD "Frame"), n.x, n.y, n.w, n.h⟩) : frameNode f = n := by
  obtain ⟨hfill, htext, hframe, hz, hlocked⟩ := h.frame hk
  obtain ⟨hfrom, hto, hstart, hend⟩ := h.ends (by rw [hk]; decide)
  have hpoints := h.points (by rw [hk]; decide)
  have hwide := h.wide
  have hhigh := h.high
  have hname := h.name
  have hsize := h.size
  rw [hf, hid]
  cases n with
  | mk id kind x y w hh fill text frame z locked size fromId toId startAt endAt points name =>
    dsimp only at hk hfill htext hframe hz hlocked hfrom hto hstart hend hpoints
    dsimp only at hwide hhigh hname hsize
    subst hk hfill htext hframe hz hlocked hfrom hto hstart hend hpoints
    have hone : least .frame = 1 := if_neg (by decide)
    rw [hone] at hwide hhigh
    obtain ⟨name, rfl⟩ := Option.isSome_iff_exists.mp (hname.trans (decide_eq_true rfl))
    have hnosize : size = none := by
      rw [decide_eq_false (by decide)] at hsize
      exact Option.not_isSome_iff_eq_none.mp (by rw [hsize]; exact Bool.false_ne_true)
    rw [hnosize, frameNode]
    simp only [max_eq_right hwide, max_eq_right hhigh, Option.getD_some]

theorem nodeOf_of (h : n.Fits) {s : Shape} (hk : n.kind ≠ .frame) (hid : s.id = n.id)
    (hkind : s.kind = n.kind.label) (hbox : s.x = n.x ∧ s.y = n.y ∧ s.w = n.w ∧ s.h = n.h)
    (hlook : s.fill = some n.fill.label ∧ s.text = some n.text ∧ s.z = some n.z ∧
      s.locked = some n.locked) (hframe : s.frame = n.frame)
    (hsize : n.kind = .text → s.size = some (n.size.getD 16))
    (hends : n.kind = .arrow → s.fromId = n.fromId ∧ s.toId = n.toId ∧ s.startAt = n.startAt ∧
      s.endAt = n.endAt) (hpoints : n.kind = .ink → s.points.getD [] = n.points) :
    nodeOf s = some n := by
  obtain ⟨hx, hy, hw, hh⟩ := hbox
  obtain ⟨hfill, htext, hz, hlocked⟩ := hlook
  have hname : n.name = none := Option.not_isSome_iff_eq_none.mp (by
    rw [h.name, decide_eq_true_eq]; exact hk)
  have hfree := h.ends
  have hdrawn := h.points
  have hnsize := h.size
  have hwide := max_eq_right h.wide
  have hhigh := max_eq_right h.high
  rw [nodeOf, hkind, ofLabel_label hk, Option.map_some, hid, hx, hy, hw, hh, hfill, htext, hz,
    hlocked, hframe, fillOf_label, hwide, hhigh]
  congr 1
  cases n with
  | mk id kind x y w hh fill text frame z locked size fromId toId startAt endAt points name =>
    dsimp only at *
    subst hname
    congr 1
    · simp
    · by_cases ht : kind = .text
      · rw [if_pos ht, hsize ht]
        rw [decide_eq_true ht] at hnsize
        obtain ⟨v, rfl⟩ := Option.isSome_iff_exists.mp hnsize
        rfl
      · rw [if_neg ht]
        rw [decide_eq_false ht] at hnsize
        exact (Option.not_isSome_iff_eq_none.mp (by rw [hnsize]; decide)).symm
    · by_cases ha : kind = .arrow
      · rw [if_pos ha, (hends ha).1]
      · rw [if_neg ha, (hfree ha).1]
    · by_cases ha : kind = .arrow
      · rw [if_pos ha, (hends ha).2.1]
      · rw [if_neg ha, (hfree ha).2.1]
    · by_cases ha : kind = .arrow
      · rw [if_pos ha, (hends ha).2.2.1]
      · rw [if_neg ha, (hfree ha).2.2.1]
    · by_cases ha : kind = .arrow
      · rw [if_pos ha, (hends ha).2.2.2]
      · rw [if_neg ha, (hfree ha).2.2.2]
    · by_cases hi : kind = .ink
      · rw [if_pos hi, hpoints hi]
      · rw [if_neg hi, hdrawn hi]

theorem nodeOf_shapeOf (h : n.Proper) (hk : n.kind ≠ .frame) : nodeOf (shapeOf n) = some n := by
  obtain ⟨hframe, hfrom, hto⟩ := h.named
  refine nodeOf_of h.fits hk rfl rfl ⟨rfl, rfl, rfl, rfl⟩ ⟨rfl, rfl, rfl, rfl⟩ (truthy_of hframe) ?_ ?_ ?_
  · intro ht
    exact if_pos ht
  · intro ha
    refine ⟨?_, ?_, if_pos ha, if_pos ha⟩
    · exact (if_pos ha).trans (truthy_of hfrom)
    · exact (if_pos ha).trans (truthy_of hto)
  · intro hi
    dsimp only [shapeOf]
    rw [if_pos hi, Option.getD_some]

theorem nodeOf_writeShape (h : n.Proper) {s : Shape} (hk : n.kind ≠ .frame) (hid : s.id = n.id) :
    nodeOf (writeShape n s) = some n := by
  obtain ⟨hframe, hfrom, hto⟩ := h.named
  refine nodeOf_of h.fits hk hid rfl ⟨rfl, rfl, rfl, rfl⟩ ⟨rfl, rfl, rfl, rfl⟩ ?_ ?_ ?_ ?_
  · rw [writeShape]
    dsimp only
    split
    · next heq => exact heq
    · exact truthy_of hframe
  · intro ht
    exact if_pos ht
  · intro ha
    refine ⟨?_, ?_, if_pos ha, if_pos ha⟩
    · rw [writeShape]
      dsimp only
      split
      · exact truthy_of hfrom
      · next hsame => exact not_not.mp fun hne => hsame ⟨ha, hne⟩
    · rw [writeShape]
      dsimp only
      split
      · exact truthy_of hto
      · next hsame => exact not_not.mp fun hne => hsame ⟨ha, hne⟩
  · intro hi
    dsimp only [writeShape]
    rw [if_pos hi, Option.getD_some]

end RoundTrip

/-- What the document reads of its own shapes it can hold. -/
theorem proper_frameNode (f : Frame) : (frameNode f).Proper := by
  refine ⟨?_, ?_, fun _ => ⟨rfl, rfl, rfl, rfl, rfl⟩, rfl, rfl, fun _ => ⟨rfl, rfl, rfl, rfl⟩,
    fun _ => rfl, ⟨nofun, nofun, nofun⟩⟩
  · exact le_max_left 1 f.w
  · exact le_max_left 1 f.h

theorem kind_of_nodeOf {s : Shape} {n : Node} (h : nodeOf s = some n) : n.kind ≠ .frame := by
  obtain ⟨kind, hkind, rfl⟩ := Option.map_eq_some_iff.mp h
  have hmem : kind ∈ Kind.shapeKinds := List.mem_of_find?_eq_some hkind
  dsimp only
  rintro rfl
  exact absurd hmem (by decide)

theorem id_of_nodeOf {s : Shape} {n : Node} (h : nodeOf s = some n) : n.id = s.id := by
  obtain ⟨kind, -, rfl⟩ := Option.map_eq_some_iff.mp h
  rfl

theorem fits_of_nodeOf {s : Shape} {n : Node} (h : nodeOf s = some n) : n.Fits := by
  have hk := kind_of_nodeOf h
  obtain ⟨kind, hkind, rfl⟩ := Option.map_eq_some_iff.mp h
  dsimp only at hk
  refine ⟨le_max_left _ _, le_max_left _ _, fun heq => absurd heq hk, ?_, ?_, fun ha => ?_,
    fun hi => if_neg hi⟩
  · exact (decide_eq_false hk).symm
  · by_cases ht : kind = .text
    · simp [ht]
    · simp [ht]
  · exact ⟨if_neg ha, if_neg ha, if_neg ha, if_neg ha⟩

theorem proper_of_nodeOf {s : Shape} {n : Node} (h : nodeOf s = some n) (hframe : s.frame ≠ some "")
    (hfrom : s.fromId ≠ some "") (hto : s.toId ≠ some "") : n.Proper := by
  obtain ⟨hwide, hhigh, hnoframe, hname, hsize, hends, hpoints⟩ := fits_of_nodeOf h
  refine ⟨hwide, hhigh, hnoframe, hname, hsize, hends, hpoints, ?_⟩
  obtain ⟨kind, hkind, rfl⟩ := Option.map_eq_some_iff.mp h
  refine ⟨hframe, ?_, ?_⟩
  · dsimp only
    split
    · exact hfrom
    · exact nofun
  · dsimp only
    split
    · exact hto
    · exact nofun

/-! ### By id -/

section Lookups

variable (M : Measure) {scene : List Node} {n : Node} {doc : Board} {id i : String}

@[simp]
theorem laid_id (n : Node) : (laid M n).id = n.id := by
  rw [laid]
  split
  · rfl
  · rfl

@[simp]
theorem laid_kind (n : Node) : (laid M n).kind = n.kind := by
  rw [laid]
  split
  · rfl
  · rfl

theorem Node.Proper.laid (h : n.Proper) : (laid M n).Proper := by
  rw [Canvas.laid]
  split
  · next hk =>
    have hone : least n.kind = 1 := by
      rw [hk]
      exact if_neg (by decide)
    exact ⟨h.wide, hone.trans_le (M.one_le_height _ _ _), h.frame, h.name, h.size, h.ends,
      h.points, h.named⟩
  · exact h

theorem attached_laid : Attached (laid M n) id ↔ Attached n id := by
  rw [Canvas.laid]
  split
  · exact Iff.rfl
  · exact Iff.rfl

theorem get_keep : Scene.get (Scene.keep scene n) = Function.update (Scene.get scene) n.id
    (some n) := by
  funext i
  by_cases hi : i = n.id
  · rw [hi, Function.update_self, Scene.get, Scene.keep, lookup_upsert_self rfl fun _ _ => rfl]
    cases lookup Node.id scene n.id with
    | none => rfl
    | some m => rfl
  · rw [Function.update_of_ne hi, Scene.get, Scene.keep, lookup_upsert_ne rfl (fun _ _ => rfl) hi]
    rfl

/-- Nodes set one after another, by id. -/
def overlay (l : List Node) (f : String → Option Node) : String → Option Node :=
  l.foldl (fun f n => Function.update f n.id (some n)) f

theorem get_keepAll (l : List Node) :
    Scene.get (l.foldl Scene.keep scene) = overlay l (Scene.get scene) := by
  induction l generalizing scene with
  | nil => rfl
  | cons n l ih =>
    rw [List.foldl_cons, ih, get_keep]
    rfl

theorem setAll_eq (l : List Node) :
    l.foldl (Scene.set M) scene = (l.map (laid M)).foldl Scene.keep scene := by
  rw [List.foldl_map]
  rfl

theorem get_setAll (l : List Node) :
    Scene.get (l.foldl (Scene.set M) scene) = overlay (l.map (laid M)) (Scene.get scene) := by
  rw [setAll_eq, get_keepAll]

section Overlay

variable {l : List Node} {f g : String → Option Node}

theorem overlay_cons : overlay (n :: l) f = overlay l (Function.update f n.id (some n)) :=
  rfl

theorem overlay_of_not_mem (h : i ∉ l.map Node.id) : overlay l f i = f i := by
  induction l generalizing f with
  | nil => rfl
  | cons n l ih =>
    rw [List.map_cons, List.mem_cons, not_or] at h
    rw [overlay_cons, ih h.2, Function.update_of_ne h.1]

theorem overlay_congr (h : i ∈ l.map Node.id ∨ f i = g i) : overlay l f i = overlay l g i := by
  induction l generalizing f g with
  | nil => exact h.resolve_left (List.not_mem_nil)
  | cons n l ih =>
    rw [overlay_cons, overlay_cons]
    refine ih ?_
    by_cases hi : i = n.id
    · exact .inr (by rw [hi, Function.update_self, Function.update_self])
    · rw [List.map_cons, List.mem_cons] at h
      rw [Function.update_of_ne hi, Function.update_of_ne hi]
      exact h.imp_left fun hmem => hmem.resolve_left hi

theorem overlay_cases (h : overlay l f i = some n) : n ∈ l ∧ n.id = i ∨ f i = some n := by
  induction l generalizing f with
  | nil => exact .inr h
  | cons m l ih =>
    rw [overlay_cons] at h
    obtain ⟨hmem, hid⟩ | hf := ih h
    · exact .inl ⟨List.mem_cons_of_mem _ hmem, hid⟩
    · by_cases hi : i = m.id
      · rw [hi, Function.update_self, Option.some.injEq] at hf
        exact .inl ⟨hf ▸ List.mem_cons_self, hf ▸ hi.symm⟩
      · rw [Function.update_of_ne hi] at hf
        exact .inr hf

theorem overlay_nodup (h : (l.map Node.id).Nodup) :
    overlay l f i = (lookup Node.id l i).or (f i) := by
  induction l generalizing f with
  | nil => rfl
  | cons n l ih =>
    rw [List.map_cons, List.nodup_cons] at h
    rw [overlay_cons, ih h.2]
    by_cases hi : i = n.id
    · have hnone : lookup Node.id l i = none := lookup_eq_none.mpr (hi ▸ h.1)
      rw [hnone, hi, Function.update_self, lookup, List.find?_cons_of_pos (by simp)]
      rfl
    · rw [Function.update_of_ne hi, lookup, lookup,
        List.find?_cons_of_neg (by simpa using Ne.symm hi)]

end Overlay

theorem nodup_keepAll (l : List Node) (h : (scene.map Node.id).Nodup) :
    ((l.foldl Scene.keep scene).map Node.id).Nodup := by
  induction l generalizing scene with
  | nil => exact h
  | cons n l ih => exact ih (nodup_upsert rfl (fun _ _ => rfl) h)

theorem mem_keepAll {l : List Node} (h : n ∈ l.foldl Scene.keep scene) : n ∈ l ∨ n ∈ scene := by
  induction l generalizing scene with
  | nil => exact .inr h
  | cons m l ih =>
    obtain h | h := ih h
    · exact .inl (List.mem_cons_of_mem _ h)
    · obtain rfl | ⟨_, _, rfl⟩ | h := mem_upsert h
      · exact .inl List.mem_cons_self
      · exact .inl List.mem_cons_self
      · exact .inr h

theorem get_filter : Scene.get (scene.filter fun n => n.id ≠ id) i =
    if i = id then none else Scene.get scene i := by
  rw [Scene.get, lookup, List.find?_filter]
  split
  · next hi =>
    rw [List.find?_eq_none]
    intro n _
    simp [hi]
  · next hi =>
    rw [Scene.get, lookup]
    congr 1
    funext n
    by_cases hn : n.id = i
    · simp [hn, hi]
    · simp [hn]

/-! ### Deleting -/

theorem attached_loosen {a : Node} (h : Attached (Scene.loosen M scene id a) i) : Attached a i := by
  obtain ⟨hkind, hne, hends⟩ := h
  refine ⟨hkind, hne, hends.imp (fun hfrom => ?_) fun hto => ?_⟩
  · rw [Scene.loosen] at hfrom
    dsimp only at hfrom
    split at hfrom
    · cases hfrom
    · exact hfrom
  · rw [Scene.loosen] at hto
    dsimp only at hto
    split at hto
    · cases hto
    · exact hto

/-- **One deletion**: what is not deleted and is no arrow with an end at it stays; what is gone
stays gone; and no arrow gets an end. -/
theorem delete_cases (hself : ∀ a ∈ scene, Attached a id → a.id ≠ id) :
    (∀ i, i ≠ id → (∀ a ∈ scene, Attached a id → a.id ≠ i) →
      Scene.get (Scene.delete M scene id) i = Scene.get scene i) ∧
    (∀ i, i = id ∨ Scene.get scene i = none → Scene.get (Scene.delete M scene id) i = none) ∧
    ∀ a ∈ Scene.delete M scene id, ∃ b ∈ scene, b.id = a.id ∧ ∀ i, Attached a i → Attached b i := by
  rw [Scene.delete]
  cases hget : Scene.get scene id with
  | none =>
    refine ⟨fun _ _ _ => rfl, ?_, fun a ha => ⟨a, ha, rfl, fun _ h => h⟩⟩
    rintro i (rfl | h)
    · exact hget
    · exact h
  | some m =>
    have hloose : ∀ i, (∀ a ∈ scene, Attached a id → a.id ≠ i) →
        i ∉ (((scene.filter fun n => Attached n id).map (Scene.loosen M scene id)).map
          (laid M)).map Node.id := by
      intro i hi hmem
      simp only [List.mem_map, List.mem_filter, decide_eq_true_eq] at hmem
      obtain ⟨_, ⟨_, ⟨a, ⟨ha, hatt⟩, rfl⟩, rfl⟩, hid⟩ := hmem
      exact hi a ha hatt (by rw [← hid, laid_id]; rfl)
    refine ⟨fun i hi hnone => ?_, fun i hi => ?_, fun a ha => ?_⟩
    · dsimp only
      rw [get_setAll, overlay_of_not_mem (hloose i hnone), get_filter, if_neg hi]
    · have hgone : ∀ a ∈ scene, Attached a id → a.id ≠ i := by
        intro a ha hatt heq
        obtain rfl | hi := hi
        · exact hself a ha hatt heq
        · exact lookup_eq_none.mp hi (heq ▸ List.mem_map_of_mem ha)
      dsimp only
      rw [get_setAll, overlay_of_not_mem (hloose i hgone), get_filter]
      split
      · rfl
      · next hne => exact hi.resolve_left hne
    · dsimp only at ha
      rw [setAll_eq] at ha
      obtain ha | ha := mem_keepAll ha
      · simp only [List.mem_map, List.mem_filter, decide_eq_true_eq] at ha
        obtain ⟨_, ⟨b, ⟨hb, -⟩, rfl⟩, rfl⟩ := ha
        refine ⟨b, hb, ?_, fun i h => ?_⟩
        · rw [laid_id]
          rfl
        · exact attached_loosen M ((attached_laid M).mp h)
      · exact ⟨a, (List.mem_filter.mp ha).1, rfl, fun _ h => h⟩

/-- Every arrow with an end at what goes, goes too. -/
def Together (scene : List Node) (ids : List String) : Prop :=
  ∀ a ∈ scene, ∀ id ∈ ids, Attached a id → a.id ∈ ids ∧ a.id ≠ id

/-- **Deleting**, by id, where every connector of what goes is deleted with it. -/
theorem get_deleteAll {ids : List String} (h : Together scene ids) (i : String) :
    Scene.get (ids.foldl (Scene.delete M) scene) i = if i ∈ ids then none else Scene.get scene i := by
  -- By induction on what is left to delete, of all that goes.
  have hrun : ∀ (left : List String) (scene : List Node), (∀ id ∈ left, id ∈ ids) →
      (∀ a ∈ scene, ∀ id ∈ left, Attached a id → a.id ∈ ids ∧ a.id ≠ id) →
      (i ∉ ids → Scene.get (left.foldl (Scene.delete M) scene) i = Scene.get scene i) ∧
      (i ∈ left ∨ Scene.get scene i = none →
        Scene.get (left.foldl (Scene.delete M) scene) i = none) := by
    intro left
    induction left with
    | nil => exact fun scene _ _ => ⟨fun _ => rfl, fun h => h.resolve_left List.not_mem_nil⟩
    | cons id left ih =>
      intro scene hsub htogether
      have hself : ∀ a ∈ scene, Attached a id → a.id ≠ id := fun a ha hatt =>
        (htogether a ha id List.mem_cons_self hatt).2
      obtain ⟨hstays, hgone, hends⟩ := delete_cases M hself
      have hnext := ih (Scene.delete M scene id) (fun j hj => hsub j (List.mem_cons_of_mem _ hj))
        fun a ha j hj hatt => by
          obtain ⟨b, hb, hid, hattached⟩ := hends a ha
          rw [← hid]
          exact htogether b hb j (List.mem_cons_of_mem _ hj) (hattached j hatt)
      refine ⟨fun hi => ?_, fun hi => ?_⟩
      · refine (hnext.1 hi).trans (hstays i ?_ fun a ha hatt heq => ?_)
        · rintro rfl
          exact hi (hsub i List.mem_cons_self)
        · exact hi (heq ▸ (htogether a ha id List.mem_cons_self hatt).1)
      · refine hnext.2 ?_
        by_cases hleft : i ∈ left
        · exact .inl hleft
        · refine .inr (hgone i (hi.imp_left fun hmem => ?_))
          exact (List.mem_cons.mp hmem).resolve_right hleft
  obtain ⟨hstays, hgone⟩ := hrun ids scene (fun _ h => h) h
  split
  · next hi => exact hgone (.inl hi)
  · next hi => exact hstays hi

theorem nodup_delete (h : (scene.map Node.id).Nodup) :
    ((Scene.delete M scene id).map Node.id).Nodup := by
  rw [Scene.delete]
  split
  · exact h
  · rw [setAll_eq]
    exact nodup_keepAll _ (h.sublist (List.filter_sublist.map Node.id))

theorem nodup_deleteAll (ids : List String) (h : (scene.map Node.id).Nodup) :
    ((ids.foldl (Scene.delete M) scene).map Node.id).Nodup := by
  induction ids generalizing scene with
  | nil => exact h
  | cons id ids ih => exact ih (nodup_delete M h)

/-! ### The document by id -/

/-- Ids are of one frame or one shape each. -/
structure Board.Distinct (isFrame : String → Bool) (doc : Board) : Prop where
  frames : ∀ f ∈ doc.frames, isFrame f.id = true
  shapes : ∀ s ∈ doc.shapes, isFrame s.id = false
  nodupFrames : (doc.frames.map Frame.id).Nodup
  nodupShapes : (doc.shapes.map Shape.id).Nodup

variable {isFrame : String → Bool}

theorem lookup_filterMap {l : List Shape} (h : (l.map Shape.id).Nodup) :
    lookup Node.id (l.filterMap nodeOf) i = (lookup Shape.id l i).bind nodeOf := by
  induction l with
  | nil => rfl
  | cons s l ih =>
    rw [List.map_cons, List.nodup_cons] at h
    cases hs : nodeOf s with
    | none =>
      rw [List.filterMap_cons_none hs, ih h.2]
      by_cases hi : s.id = i
      · rw [lookup_eq_none.mpr (hi ▸ h.1), lookup, List.find?_cons_of_pos (by simpa using hi)]
        exact hs.symm
      · rw [lookup, lookup, List.find?_cons_of_neg (by simpa using hi)]
    | some m =>
      have hm := id_of_nodeOf hs
      rw [List.filterMap_cons_some hs]
      by_cases hi : s.id = i
      · rw [lookup, List.find?_cons_of_pos (by simpa using hm.trans hi), lookup,
          List.find?_cons_of_pos (by simpa using hi)]
        exact hs.symm
      · rw [lookup, List.find?_cons_of_neg (by rw [hm]; simpa using hi), ← lookup, ih h.2, lookup,
          lookup, List.find?_cons_of_neg (by simpa using hi)]

theorem ids_filterMap (l : List Shape) :
    ((l.filterMap nodeOf).map Node.id).Sublist (l.map Shape.id) := by
  induction l with
  | nil => exact List.Sublist.refl _
  | cons s l ih =>
    cases hs : nodeOf s with
    | none =>
      rw [List.filterMap_cons_none hs]
      exact ih.cons _
    | some m =>
      rw [List.filterMap_cons_some hs, List.map_cons, List.map_cons, id_of_nodeOf hs]
      exact ih.cons_cons _

/-- The node of an id is the one the document is read as. -/
theorem lookup_fromDoc (h : doc.Distinct isFrame) : lookup Node.id (fromDoc doc) i = doc.node i := by
  rw [fromDoc, lookup, List.find?_append, ← lookup, ← lookup, lookup_filterMap h.nodupShapes,
    Board.node, lookup, List.find?_map]
  rfl

theorem nodup_fromDoc (h : doc.Distinct isFrame) : ((fromDoc doc).map Node.id).Nodup := by
  rw [fromDoc, List.map_append, List.map_map]
  refine List.nodup_append.mpr ⟨h.nodupFrames, h.nodupShapes.sublist (ids_filterMap _), ?_⟩
  intro a ha b hb heq
  obtain ⟨f, hf, rfl⟩ := List.mem_map.mp ha
  obtain ⟨s, hs, rfl⟩ := List.mem_map.mp ((ids_filterMap _).subset hb)
  have hframe := h.frames f hf
  have hshape := h.shapes s hs
  rw [← heq] at hshape
  exact absurd (hframe.symm.trans hshape) (by decide)

theorem node_put (h : doc.Distinct isFrame) (hn : n.Proper)
    (hk : isFrame n.id = decide (n.kind = .frame)) :
    (doc.put n).node = Function.update doc.node n.id (some n) := by
  have hframe : ∀ f : Frame, f.id = n.id → (writeFrame n f).id = n.id := fun _ hf => hf
  have hshape : ∀ s : Shape, s.id = n.id → (writeShape n s).id = n.id := fun _ hs => hs
  have hnewFrame : (frameOf n).id = n.id := rfl
  have hnewShape : (shapeOf n).id = n.id := rfl
  funext i
  rw [Board.put]
  split
  · next hkind =>
    by_cases hi : i = n.id
    · rw [hi, Function.update_self, Board.node]
      dsimp only
      rw [lookup_upsert_self hnewFrame hframe]
      have hwritten : frameNode ((lookup Frame.id doc.frames n.id).elim (frameOf n) (writeFrame n)) =
          n := by
        cases hf : lookup Frame.id doc.frames n.id with
        | none => exact frameNode_of hn.fits hkind rfl rfl
        | some f => exact frameNode_of hn.fits hkind (mem_of_lookup hf).2 rfl
      rw [Option.map_some, hwritten]
      rfl
    · rw [Function.update_of_ne hi, Board.node, Board.node]
      dsimp only
      rw [lookup_upsert_ne hnewFrame hframe hi]
  · next hkind =>
    by_cases hi : i = n.id
    · have hnone : lookup Frame.id doc.frames n.id = none := by
        rw [lookup_eq_none]
        intro hmem
        obtain ⟨f, hf, hid⟩ := List.mem_map.mp hmem
        have hframe := h.frames f hf
        rw [hid, hk, decide_eq_true_eq] at hframe
        exact hkind hframe
      rw [hi, Function.update_self, Board.node]
      dsimp only
      rw [hnone, lookup_upsert_self hnewShape hshape]
      change (nodeOf ((lookup Shape.id doc.shapes n.id).elim (shapeOf n) (writeShape n))) = _
      cases hs : lookup Shape.id doc.shapes n.id with
      | none => exact nodeOf_shapeOf hn hkind
      | some s => exact nodeOf_writeShape hn hkind (mem_of_lookup hs).2
    · rw [Function.update_of_ne hi, Board.node, Board.node]
      dsimp only
      rw [lookup_upsert_ne hnewShape hshape hi]

theorem distinct_put (h : doc.Distinct isFrame) (hk : isFrame n.id = decide (n.kind = .frame)) :
    (doc.put n).Distinct isFrame := by
  rw [Board.put]
  split
  · next hkind =>
    refine ⟨fun f hf => ?_, h.shapes, nodup_upsert rfl (fun _ hf => hf) h.nodupFrames,
      h.nodupShapes⟩
    obtain rfl | ⟨g, hg, rfl⟩ | hf := mem_upsert hf
    · exact hk.trans (decide_eq_true hkind)
    · exact h.frames g hg
    · exact h.frames f hf
  · next hkind =>
    refine ⟨h.frames, fun s hs => ?_, h.nodupFrames,
      nodup_upsert rfl (fun _ hs => hs) h.nodupShapes⟩
    obtain rfl | ⟨r, hr, rfl⟩ | hs := mem_upsert hs
    · exact hk.trans (decide_eq_false hkind)
    · exact h.shapes r hr
    · exact h.shapes s hs

theorem node_remove (h : doc.Distinct isFrame) :
    (doc.remove id).node i = if i = id then none else doc.node i := by
  rw [Board.node, Board.remove]
  dsimp only
  rw [lookup_removeById h.nodupFrames, lookup_removeById h.nodupShapes]
  split
  · rfl
  · rfl

theorem distinct_remove (h : doc.Distinct isFrame) (id : String) :
    (doc.remove id).Distinct isFrame where
  frames f hf := h.frames f (List.mem_of_mem_eraseP hf)
  shapes s hs := h.shapes s (List.mem_of_mem_eraseP hs)
  nodupFrames := h.nodupFrames.sublist (List.eraseP_sublist.map Frame.id)
  nodupShapes := h.nodupShapes.sublist (List.eraseP_sublist.map Shape.id)

end Lookups

end Canvas

end LocalSpace
