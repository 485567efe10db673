import Mathlib.Data.Nat.Prime.Basic
import Mathlib.Data.Rat.Floor
import Mathlib.Data.List.Forall2
import Mathlib.Tactic.Linarith
import Mathlib.Tactic.NormNum
import LocalSpace.Library.Listings
import LocalSpace.Boards

/-!
# The order shapes are drawn in

The whiteboard's tools and the canvas editor's own operations give shapes their stacking numbers:
the tools read whole numbers only (`nextZ`), the editor any number, and its "forward" and "backward"
go by one and a half. A shape is drawn above another where its number is higher (`Scene.all`).
-/

namespace LocalSpace

namespace Whiteboard

open Library

/-! ### Numbers -/

/-- The value of a JSON number; 0 for what is none. -/
def valueOf : Json → ℚ
  | .num m (.ofNat n) => m * 10 ^ n
  | .num m (.negSucc n) => m / 10 ^ (n + 1)
  | _ => 0

/-- A whole number and its halves. -/
def Half (q : ℚ) : Prop :=
  ∃ n : ℤ, q = n / 2

/-- Double-precision numbers: the nearest to a number, which a half is where it fits. -/
structure Doubles where
  round : ℚ → ℚ
  exact : ∀ q, Half q → |q| ≤ 2 ^ 52 → round q = q

/-- A number as the replica writes it: whole ones as integers, others as decimals. -/
def ofNumber (q : ℚ) : Json :=
  if q.den = 1 then .num q.num 0
  else .num (q.num * 5 ^ q.den.log2) (-q.den.log2)

/-! ### The scene -/

inductive Kind where
  | sticky | rect | ellipse | text | arrow | ink | frame
  deriving DecidableEq

namespace Kind

def label : Kind → String
  | sticky => "sticky"
  | rect => "rect"
  | ellipse => "ellipse"
  | text => "text"
  | arrow => "arrow"
  | ink => "ink"
  | frame => "frame"

/-- The kinds of shapes. -/
def shapeKinds : List Kind :=
  [sticky, rect, ellipse, text, arrow, ink]

def ofLabel (s : String) : Option Kind :=
  shapeKinds.find? fun k => k.label = s

end Kind

/-- A shape or a frame on the canvas, as far as stacking goes. -/
structure Node where
  id : String
  kind : Kind
  z : ℚ
  locked : Bool

/-- A scene: nodes by their ids, in the order they came. -/
abbrev Scene := List Node

namespace Scene

/-- `Scene.set`. -/
@[grind =]
def set (scene : Scene) (n : Node) : Scene :=
  if scene.any (fun m => m.id = n.id) then scene.map fun m => if m.id = n.id then n else m
  else scene ++ [n]

/-- Drawn before, or in the same place. -/
def notAbove (a b : Node) : Bool :=
  a.z < b.z ∨ a.z = b.z ∧ a.id ≤ b.id

/-- Every node, bottom to top. -/
@[grind =]
def all (scene : Scene) : List Node :=
  scene.mergeSort notAbove

end Scene

section Shown

variable (D : Doubles)

/-- A shape as a node; an unknown kind is dropped. -/
def nodeOf (sh : Json) : Option Node :=
  (Kind.ofLabel ((kindOf sh).getD "")).map fun kind =>
    ⟨(idOf sh).getD "", kind, D.round (valueOf (sh.atKey "z")), locked sh⟩

def frameNode (fr : Json) : Node :=
  ⟨(idOf fr).getD "", .frame, -1, false⟩

/-- The document's shapes and frames as nodes. -/
@[grind =]
def fromDoc (doc : Json) : List Node :=
  (framesOf doc).map frameNode ++ (shapesOf doc).filterMap (nodeOf D)

/-- The scene that shows a document. -/
def sceneOf (stored : Json) : Scene :=
  (fromDoc D (load stored)).foldl Scene.set []

/-- What is drawn, bottom to top. -/
@[grind =]
def shown (stored : Json) : List Node :=
  (sceneOf D stored).all

end Shown

/-! ### The editor's operations -/

/-- What a change writes of a shape besides its id, kind, stacking number and lock. -/
structure Rest where
  write : Json → Json
  isObject_write : ∀ sh, (write sh).isObject = sh.isObject
  atKey_write : ∀ sh, ∀ key ∈ ["id", "kind", "z", "locked"], (write sh).atKey key = sh.atKey key

/-- The nodes a change sets, each with what else is written of it, and the ids it deletes. -/
structure Change where
  set : List (Node × Rest)
  deleted : List String

inductive Where where
  | front | back | forward | backward

def Where.label : Where → String
  | front => "front"
  | back => "back"
  | forward => "forward"
  | backward => "backward"

/-- The editor's operations, as they commit: a node created or drawn; nodes moved, resized, filled,
relabelled or locked; nodes deleted; the selection reordered; the selection copied. -/
inductive EditorOp where
  | create (kind : Kind) (id : String) (rest : Rest)
  | edit (edits : List (String × Option Bool × Rest))
  | delete (ids : List String)
  | order (selection : List String) (toward : Where)
  | duplicate (copies : List (String × String × Rest))

section Editor

variable (D : Doubles) (scene : Scene)

/-- The nodes that are no frames. -/
def onBoard (nodes : List Node) : List Node :=
  nodes.filter fun n => n.kind ≠ .frame

/-- `Editor.nextZ`. -/
def editorNextZ (kind : Kind) : ℚ :=
  if kind = .frame then -1
  else D.round ((onBoard scene.all).foldl (fun top n => if top < n.z then n.z else top) 0 + 1)

/-- The rest of a node, written again as it is. -/
def Rest.same : Rest :=
  ⟨id, fun _ => rfl, fun _ _ _ => rfl⟩

/-- `Editor.order`. -/
def orderNodes (selection : List String) (toward : Where) : List Node :=
  let all := onBoard scene.all
  let top := D.round ((all.getLast?.map Node.z).getD 0 + 1)
  let bottom := D.round ((all.head?.map Node.z).getD 0 - 1)
  all.filterMap fun n =>
    if n.id ∉ selection ∨ n.locked then none
    else some { n with z := match toward with
      | .front => top
      | .back => bottom
      | .forward => D.round (n.z + 3 / 2)
      | .backward => D.round (n.z - 3 / 2) }

def nodeAt (id : String) : Option Node :=
  scene.find? fun n => n.id = id

/-- What an operation commits. -/
@[grind =]
def EditorOp.change : EditorOp → Change
  | create kind id rest => ⟨[(⟨id, kind, editorNextZ D scene kind, false⟩, rest)], []⟩
  | edit edits => ⟨edits.filterMap fun e => (nodeAt scene e.1).map fun n =>
      ({ n with locked := e.2.1.getD n.locked }, e.2.2), []⟩
  | delete ids => ⟨[], ids⟩
  | order selection toward =>
    ⟨(orderNodes D scene selection toward).map fun n => (n, .same), []⟩
  | duplicate copies => ⟨copies.filterMap fun e => (nodeAt scene e.1).bind fun n =>
      if n.kind = .arrow then none
      else some ({ n with id := e.2.1, z := editorNextZ D scene n.kind }, e.2.2), []⟩

end Editor

/-! ### The replica -/

section Replica

variable (D : Doubles)

@[grind =]
def shapeOf (n : Node) (rest : Rest) : Json :=
  rest.write (.obj [("id", .str n.id), ("kind", .str n.kind.label), ("locked", .bool n.locked),
    ("z", ofNumber n.z)])

/-- Whether a value is a number, and this one. -/
def isNumber (q : ℚ) : Json → Bool
  | .num m e => D.round (valueOf (.num m e)) = q
  | _ => false

/-- Only what differs is written. -/
@[grind =]
def writeShape (n : Node) (rest : Rest) (sh : Json) : Json :=
  let sh := if kindOf sh = some n.kind.label then sh else sh.setKey "kind" (.str n.kind.label)
  let sh := if isNumber D n.z (sh.atKey "z") then sh else sh.setKey "z" (ofNumber n.z)
  let sh := if (sh.atKey "locked").asBool = some n.locked then sh
    else sh.setKey "locked" (.bool n.locked)
  rest.write sh

@[grind =]
def putShape (shapes : List Json) (w : Node × Rest) : List Json :=
  match Named.place idOf w.1.id shapes with
  | none => shapes ++ [shapeOf w.1 w.2]
  | some i => shapes.modify i (writeShape D w.1 w.2)

def putFrame (frames : List Json) (w : Node × Rest) : List Json :=
  match Named.place idOf w.1.id frames with
  | none => frames ++ [w.2.write (.obj [("id", .str w.1.id)])]
  | some i => frames.modify i w.2.write

def removeById (list : List Json) (id : String) : List Json :=
  match Named.place idOf id list with
  | none => list
  | some i => list.eraseIdx i

/-- The document with the lists the replica writes to. -/
def filled (stored : Json) : Json :=
  .withDefaults [("shapes", .arr []), ("frames", .arr [])] stored

@[grind =]
def shapesAfter (change : Change) (shapes : List Json) : List Json :=
  (change.set.filter fun w => w.1.kind ≠ .frame).foldl (putShape D)
    (change.deleted.foldl removeById shapes)

def framesAfter (change : Change) (frames : List Json) : List Json :=
  (change.set.filter fun w => w.1.kind = .frame).foldl putFrame
    (change.deleted.foldl removeById frames)

/-- `Replica.local`: the editor's change into the document; an empty change is no change. -/
@[grind =]
def localChange (change : Change) (stored : Json) : Json :=
  if change.set.isEmpty && change.deleted.isEmpty then stored
  else
    let doc := filled stored
    (doc.setKey "shapes" (.arr (shapesAfter D change (shapesOf doc)))).setKey "frames"
      (.arr (framesAfter change (framesOf doc)))

end Replica

/-! ### Histories -/

/-- A step of a board's history: a tool called, or an operation of the editor that shows it. -/
inductive Step where
  | tool (c : ToolCall)
  | edit (op : EditorOp)

namespace Step

variable (N : Floats) (D : Doubles)

@[grind =]
def apply (stored : Json) : Step → Json
  | tool c => (call N c stored).2
  | edit op => localChange D (op.change D (sceneOf D stored)) stored

/-- The ids an order names. -/
@[grind =]
def names : Step → List String
  | tool c => idsOf c.params
  | edit (.order selection _) => selection
  | edit _ => []

/-- A step is an order of unlocked shapes, and it goes through. -/
def Sends (stored : Json) (toward : Where) : Step → Prop
  | tool c => c.name = "canvas.order" ∧ textOf c.params "to" "front" = toward.label ∧
      (call N c stored).1.isOk = true
  | edit (.order selection toward') => toward' = toward ∧
      ∀ n ∈ sceneOf D stored, n.id ∈ selection → n.locked = false
  | edit _ => False

end Step

/-- One node is drawn above another. -/
def DrawnAbove (drawn : List Node) (a b : Node) : Prop :=
  ∃ i j : Nat, i < j ∧ drawn[i]? = some b ∧ drawn[j]? = some a

/-- Every shape of some ids is drawn above every other shape. -/
def Lifted (drawn : List Node) (p : String → Prop) : Prop :=
  ∀ a ∈ drawn, ∀ b ∈ drawn, a.kind ≠ .frame → b.kind ≠ .frame → p a.id → ¬p b.id →
    DrawnAbove drawn a b

/-- What a step must do to the order shapes are drawn in: what is sent to the front is above what
is not named, what is sent to the back is below it, and what is new is above what was there. -/
structure Right (N : Floats) (D : Doubles) (stored : Json) (s : Step) : Prop where
  front : s.Sends N D stored .front → Lifted (shown D (s.apply N D stored)) (· ∈ s.names)
  back : s.Sends N D stored .back → Lifted (shown D (s.apply N D stored)) (· ∉ s.names)
  added : Lifted (shown D (s.apply N D stored)) (· ∉ Named.names idOf (shapes stored))

/-- The document after some steps. -/
@[grind =]
def history (N : Floats) (D : Doubles) (steps : List Step) : Json :=
  steps.foldl (fun stored s => s.apply N D stored) (.obj [])

/-! ### What is drawn -/

section Drawn

variable {D : Doubles} {l : List Node} {a b : Node}

theorem notAbove_iff : Scene.notAbove a b = true ↔ a.z < b.z ∨ a.z = b.z ∧ a.id ≤ b.id :=
  decide_eq_true_iff

theorem pairwise_all (scene : Scene) : scene.all.Pairwise fun a b => a.z ≤ b.z := by
  refine (List.pairwise_mergeSort ?_ ?_ scene).imp fun h => ?_
  · intro a b c hab hbc
    rw [notAbove_iff] at hab hbc ⊢
    obtain hab | ⟨hab, hid⟩ := hab
    · obtain hbc | ⟨hbc, _⟩ := hbc
      · exact .inl (hab.trans hbc)
      · exact .inl (hbc ▸ hab)
    · obtain hbc | ⟨hbc, hid'⟩ := hbc
      · exact .inl (hab ▸ hbc)
      · exact .inr ⟨hab.trans hbc, hid.trans hid'⟩
  · intro a b
    rw [Bool.or_eq_true, notAbove_iff, notAbove_iff]
    obtain hlt | heq | hgt := lt_trichotomy a.z b.z
    · exact .inl (.inl hlt)
    · obtain hid | hid := le_total a.id b.id
      · exact .inl (.inr ⟨heq, hid⟩)
      · exact .inr (.inr ⟨heq.symm, hid⟩)
    · exact .inr (.inl hgt)
  · obtain h | ⟨h, _⟩ := notAbove_iff.mp h
    · exact h.le
    · exact h.le

theorem mem_all {scene : Scene} : a ∈ scene.all ↔ a ∈ scene :=
  List.mem_mergeSort

/-- A higher number is drawn above. -/
theorem drawnAbove_of_lt {scene : Scene} (ha : a ∈ scene.all) (hb : b ∈ scene.all)
    (h : b.z < a.z) : DrawnAbove scene.all a b := by
  obtain ⟨j, hj, rfl⟩ := List.mem_iff_getElem.mp ha
  obtain ⟨i, hi, rfl⟩ := List.mem_iff_getElem.mp hb
  refine ⟨i, j, ?_, List.getElem?_eq_getElem hi, List.getElem?_eq_getElem hj⟩
  by_contra hle
  obtain rfl | hlt := eq_or_lt_of_le (not_lt.mp hle)
  · exact lt_irrefl _ h
  · exact absurd (List.pairwise_iff_getElem.mp (pairwise_all scene) j i hj hi hlt) (not_le.mpr h)

/-- Nodes none of which share an id are set one after another. -/
theorem foldl_set {scene : Scene} (h : ((scene ++ l).map Node.id).Nodup) :
    l.foldl Scene.set scene = scene ++ l := by
  induction l generalizing scene with
  | nil => rw [List.foldl_nil, List.append_nil]
  | cons n l ih =>
    have hnew : scene.any (fun m => m.id = n.id) = false := by
      rw [List.any_eq_false]
      intro m hm heq
      rw [List.map_append, List.map_cons, List.nodup_append] at h
      exact h.2.2 m.id (List.mem_map_of_mem hm) n.id List.mem_cons_self (of_decide_eq_true heq)
    rw [List.foldl_cons, Scene.set, hnew, if_neg Bool.false_ne_true, ih, List.append_assoc]
    · rfl
    · rw [List.append_assoc]
      exact h

end Drawn

/-! ### Stacking numbers -/

/-- The stacking number of a shape as the document holds it. -/
@[grind =]
def zOf (sh : Json) : ℚ :=
  valueOf (sh.atKey "z")

theorem half_int (n : ℤ) : Half n :=
  ⟨2 * n, by push_cast; ring⟩

theorem Half.add {q r : ℚ} (hq : Half q) (hr : Half r) : Half (q + r) := by
  obtain ⟨n, rfl⟩ := hq
  obtain ⟨m, rfl⟩ := hr
  exact ⟨n + m, by push_cast; ring⟩

theorem Half.sub {q r : ℚ} (hq : Half q) (hr : Half r) : Half (q - r) := by
  obtain ⟨n, rfl⟩ := hq
  obtain ⟨m, rfl⟩ := hr
  exact ⟨n - m, by push_cast; ring⟩

theorem half_one : Half 1 :=
  ⟨2, by norm_num⟩

theorem half_three_halves : Half (3 / 2) :=
  ⟨3, by norm_num⟩

@[simp]
theorem valueOf_num (i : ℤ) : valueOf (.num i 0) = i := by
  change (i : ℚ) * 10 ^ 0 = i
  rw [pow_zero, mul_one]

theorem valueOf_ofNumber {q : ℚ} (h : Half q) : valueOf (ofNumber q) = q := by
  rw [ofNumber]
  split
  · next hden =>
    rw [valueOf_num]
    exact Rat.coe_int_num_of_den_eq_one hden
  · next hden =>
    obtain ⟨n, rfl⟩ := h
    have hdvd : ((n : ℚ) / 2).den ∣ 2 := by
      have := Rat.den_dvd n 2
      rw [Rat.divInt_eq_div] at this
      exact_mod_cast this
    have htwo : ((n : ℚ) / 2).den = 2 := by
      obtain h | h := (Nat.dvd_prime Nat.prime_two).mp hdvd
      · exact absurd h hden
      · exact h
    have hvalue : (n : ℚ) / 2 = ((n : ℚ) / 2).num / 2 := by
      conv_lhs => rw [← Rat.num_div_den ((n : ℚ) / 2), htwo]
      norm_num
    rw [htwo]
    change (((((n : ℚ) / 2).num * 5 ^ 1 : ℤ)) : ℚ) / 10 ^ (0 + 1) = _
    conv_rhs => rw [hvalue]
    push_cast
    ring

theorem zOf_setKey_ne {key : String} (h : "z" ≠ key) (v sh : Json) :
    zOf (sh.setKey key v) = zOf sh := by
  rw [zOf, Json.atKey_setKey_ne h, zOf]

theorem zOf_setKey {sh : Json} (h : sh.isObject = true) (v : Json) :
    zOf (sh.setKey "z" v) = valueOf v := by
  rw [zOf, Json.atKey_setKey h]

/-! ### Documents -/

theorem isObject_withDefault {doc : Json} (h : doc.isObject = true) (key : String) (v : Json) :
    (doc.withDefault key v).isObject = true := by
  rw [Json.withDefault]
  split
  · exact Json.isObject_setKey key v h
  · exact h

theorem arrayAt_withDefault {doc : Json} (h : doc.isObject = true) (key key' : String) {v : Json}
    (hv : key' = key → v = .arr []) :
    ((doc.withDefault key' v).atKey key).asArray.getD [] = (doc.atKey key).asArray.getD [] := by
  rw [Json.withDefault]
  split
  · next hnone =>
    by_cases hkey : key' = key
    · subst hkey
      rw [Json.atKey_setKey h, hv rfl, Json.atKey, Option.isNone_iff_eq_none.mp hnone]
      rfl
    · rw [Json.atKey_setKey_ne (Ne.symm hkey)]
  · rfl

theorem arrayAt_withDefaults {key : String} {list : List (String × Json)}
    (hv : ∀ d ∈ list, d.1 = key → d.2 = .arr []) {doc : Json} (h : doc.isObject = true) :
    ((list.foldl (fun doc d => doc.withDefault d.1 d.2) doc).atKey key).asArray.getD [] =
      (doc.atKey key).asArray.getD [] := by
  induction list generalizing doc with
  | nil => rfl
  | cons d list ih =>
    rw [List.foldl_cons, ih (fun d hd => hv d (List.mem_cons_of_mem _ hd))
      (isObject_withDefault h d.1 d.2), arrayAt_withDefault h key d.1 (hv d List.mem_cons_self)]

theorem isObject_withDefaults {list : List (String × Json)} (stored : Json) :
    (Json.withDefaults list stored).isObject = true := by
  have hfold : ∀ {doc : Json}, doc.isObject = true →
      (list.foldl (fun doc d => doc.withDefault d.1 d.2) doc).isObject = true := by
    intro doc h
    induction list generalizing doc with
    | nil => exact h
    | cons d list ih => exact ih (isObject_withDefault h d.1 d.2)
  have hbase : (if stored.isObject then stored else .obj []).isObject = true := by
    split
    · assumption
    · rfl
  rw [Json.withDefaults]
  exact hfold hbase

/-- What is read does not depend on which defaults a document is given. -/
theorem arrayAt_filled (stored : Json) {key : String} (hkey : key = "shapes" ∨ key = "frames") :
    ((filled stored).atKey key).asArray.getD [] = ((load stored).atKey key).asArray.getD [] := by
  have hobject : (if stored.isObject then stored else .obj []).isObject = true := by
    split
    · assumption
    · rfl
  have hfilled : ∀ d ∈ [("shapes", Json.arr []), ("frames", Json.arr [])],
      d.1 = key → d.2 = .arr [] := by
    simp
  have hload : ∀ d ∈ defaults, d.1 = key → d.2 = .arr [] := by
    obtain rfl | rfl := hkey
    · simp [defaults]
    · simp [defaults]
  rw [filled, load, Json.withDefaults, Json.withDefaults, arrayAt_withDefaults hfilled hobject,
    arrayAt_withDefaults hload hobject]

theorem arrayAt_load {doc : Json} (hobject : doc.isObject = true) {key : String}
    (hkey : key = "shapes" ∨ key = "frames") :
    ((load doc).atKey key).asArray.getD [] = (doc.atKey key).asArray.getD [] := by
  have hload : ∀ d ∈ defaults, d.1 = key → d.2 = .arr [] := by
    obtain rfl | rfl := hkey
    · simp [defaults]
    · simp [defaults]
  rw [load, Json.withDefaults, if_pos hobject, arrayAt_withDefaults hload hobject]

/-- What an editor's change leaves of the shapes and the frames. -/
theorem localChange_lists (D : Doubles) (change : Change) (stored : Json)
    (h : (change.set.isEmpty && change.deleted.isEmpty) = false) :
    shapes (localChange D change stored) = shapesAfter D change (shapes stored) ∧
      frames (localChange D change stored) = framesAfter change (frames stored) := by
  have hobject : (filled stored).isObject = true := isObject_withDefaults stored
  have hshapes : shapesOf (filled stored) = shapes stored := arrayAt_filled stored (.inl rfl)
  have hframes : framesOf (filled stored) = frames stored := arrayAt_filled stored (.inr rfl)
  have hwritten := Json.isObject_setKey "shapes"
    (.arr (shapesAfter D change (shapesOf (filled stored)))) hobject
  rw [localChange, h, if_neg Bool.false_ne_true]
  constructor
  · refine (arrayAt_load (Json.isObject_setKey _ _ hwritten) (.inl rfl)).trans ?_
    rw [Json.atKey_setKey_ne (by decide), Json.atKey_setKey hobject, hshapes]
    rfl
  · refine (arrayAt_load (Json.isObject_setKey _ _ hwritten) (.inr rfl)).trans ?_
    rw [Json.atKey_setKey hwritten, hframes]
    rfl

/-! ### Boards whose shapes have places -/

/-- Every shape and frame has an id that is no other's, and every stacking number is a half. -/
structure Ranked (stored : Json) : Prop where
  identified : ∀ sh ∈ shapes stored ++ frames stored, (idOf sh).isSome = true
  distinct : (ids stored).Nodup
  halves : ∀ sh ∈ shapes stored, Half (zOf sh)

/-- Whether a shape is of a kind that is drawn. -/
def Drawn (sh : Json) : Prop :=
  (Kind.ofLabel ((kindOf sh).getD "")).isSome = true

section Ranked

variable {D : Doubles} {stored : Json} {sh : Json} {a : Node}

theorem nodeOf_eq (h : nodeOf D sh = some a) :
    a.id = (idOf sh).getD "" ∧ a.z = D.round (zOf sh) ∧ a.locked = locked sh ∧
      kindOf sh = some a.kind.label ∧ a.kind ≠ .frame := by
  obtain ⟨kind, hkind, rfl⟩ := Option.map_eq_some_iff.mp h
  have hmem := List.mem_of_find?_eq_some hkind
  have hlabel : kind.label = (kindOf sh).getD "" := by
    rw [Kind.ofLabel] at hkind
    have hfound := List.find?_some hkind
    exact of_decide_eq_true hfound
  refine ⟨rfl, rfl, rfl, ?_, ?_⟩
  · cases hsome : kindOf sh with
    | some k =>
      rw [hsome] at hlabel
      exact congrArg some hlabel.symm
    | none =>
      rw [hsome] at hlabel
      exact absurd hlabel (by cases kind <;> decide)
  · rintro rfl
    exact absurd hmem (by decide)

theorem nodeOf_of_drawn (h : Drawn sh) : ∃ a, nodeOf D sh = some a := by
  obtain ⟨kind, hkind⟩ := Option.isSome_iff_exists.mp h
  exact ⟨_, by rw [nodeOf, hkind]; rfl⟩

theorem drawn_of_nodeOf (h : nodeOf D sh = some a) : Drawn sh := by
  obtain ⟨kind, hkind, -⟩ := Option.map_eq_some_iff.mp h
  rw [Drawn, hkind]
  rfl

theorem idOf_of_nodeOf (h : nodeOf D sh = some a) (hid : (idOf sh).isSome = true) :
    idOf sh = some a.id := by
  obtain ⟨id, hid⟩ := Option.isSome_iff_exists.mp hid
  rw [(nodeOf_eq h).1, hid]
  rfl

theorem ids_filterMap_nodeOf {l : List Json} (h : ∀ sh ∈ l, (idOf sh).isSome = true) :
    ((l.filterMap (nodeOf D)).map Node.id).Sublist (Named.names idOf l) := by
  induction l with
  | nil => exact .slnil
  | cons sh l ih =>
    have ih := ih fun sh hsh => h sh (List.mem_cons_of_mem _ hsh)
    obtain ⟨id, hid⟩ := Option.isSome_iff_exists.mp (h sh List.mem_cons_self)
    have hnames : Named.names idOf (sh :: l) = id :: Named.names idOf l :=
      List.filterMap_cons_some hid
    rw [hnames]
    cases ha : nodeOf D sh with
    | none =>
      rw [List.filterMap_cons_none ha]
      exact ih.cons id
    | some a =>
      have hsame := idOf_of_nodeOf ha (by rw [hid]; rfl)
      rw [hid, Option.some.injEq] at hsame
      rw [List.filterMap_cons_some ha, List.map_cons, ← hsame]
      exact ih.cons_cons id

theorem ids_map_frameNode {l : List Json} (h : ∀ fr ∈ l, (idOf fr).isSome = true) :
    (l.map frameNode).map Node.id = Named.names idOf l := by
  induction l with
  | nil => rfl
  | cons fr l ih =>
    obtain ⟨id, hid⟩ := Option.isSome_iff_exists.mp (h fr List.mem_cons_self)
    have hnames : Named.names idOf (fr :: l) = id :: Named.names idOf l :=
      List.filterMap_cons_some hid
    rw [hnames, List.map_cons, List.map_cons, ih fun fr hfr => h fr (List.mem_cons_of_mem _ hfr)]
    refine congrArg (· :: _) ?_
    rw [frameNode, hid]
    rfl

/-- The scene of a board holds its nodes as they are read. -/
theorem Ranked.scene (h : Ranked stored) : sceneOf D stored = fromDoc D (load stored) := by
  rw [sceneOf, foldl_set]
  · rfl
  · have hframes := ids_map_frameNode fun fr hfr =>
      h.identified fr (List.mem_append_right _ hfr)
    have hshapes := ids_filterMap_nodeOf (D := D) fun sh hsh =>
      h.identified sh (List.mem_append_left _ hsh)
    rw [List.nil_append, fromDoc, List.map_append]
    change (((frames stored).map frameNode).map Node.id ++
      ((shapes stored).filterMap (nodeOf D)).map Node.id).Nodup
    rw [hframes]
    refine ((List.Sublist.refl _).append hshapes).nodup ?_
    have hids : ids stored = Named.names idOf (shapes stored) ++ Named.names idOf (frames stored) :=
      Named.names_append
    exact (List.perm_append_comm.nodup_iff).mp (hids ▸ h.distinct)

/-- The nodes drawn that are no frames are the shapes of the kinds that are drawn. -/
theorem Ranked.mem_scene (h : Ranked stored) (hkind : a.kind ≠ .frame) :
    a ∈ sceneOf D stored ↔ ∃ sh ∈ shapes stored, nodeOf D sh = some a := by
  rw [h.scene, fromDoc, List.mem_append, List.mem_filterMap]
  refine ⟨fun hmem => ?_, .inr⟩
  obtain hmem | hmem := hmem
  · obtain ⟨fr, -, rfl⟩ := List.mem_map.mp hmem
    exact absurd rfl hkind
  · exact hmem

theorem Ranked.idOf_node (h : Ranked stored) (hsh : sh ∈ shapes stored)
    (ha : nodeOf D sh = some a) : idOf sh = some a.id :=
  idOf_of_nodeOf ha (h.identified sh (List.mem_append_left _ hsh))

/-- Every drawn shape of some ids has a higher number than every other. -/
def Over (p : String → Prop) (l : List Json) : Prop :=
  ∀ sh ∈ l, ∀ sh' ∈ l, Drawn sh → Drawn sh' → ∀ id id', idOf sh = some id → idOf sh' = some id' →
    p id → ¬p id' → zOf sh' < zOf sh

/-- The numbers of some shapes fit the editor's. -/
def Fits (m : ℚ) (l : List Json) : Prop :=
  ∀ sh ∈ l, |zOf sh| + m ≤ 2 ^ 52

theorem Fits.exact {m : ℚ} {l : List Json} (h : Fits m l) (hm : 0 ≤ m)
    (halves : ∀ sh ∈ l, Half (zOf sh)) (hsh : sh ∈ l) : D.round (zOf sh) = zOf sh :=
  D.exact _ (halves sh hsh) (by linarith [h sh hsh])

theorem Ranked.lifted {p : String → Prop} (h : Ranked stored) (hfits : Fits 0 (shapes stored))
    (hover : Over p (shapes stored)) : Lifted (shown D stored) p := by
  intro a ha b hb hka hkb hpa hpb
  obtain ⟨sh, hsh, hna⟩ := (h.mem_scene hka).mp (mem_all.mp ha)
  obtain ⟨sh', hsh', hnb⟩ := (h.mem_scene hkb).mp (mem_all.mp hb)
  refine drawnAbove_of_lt ha hb ?_
  rw [(nodeOf_eq hna).2.1, (nodeOf_eq hnb).2.1, hfits.exact le_rfl h.halves hsh,
    hfits.exact le_rfl h.halves hsh']
  exact hover sh hsh sh' hsh' (drawn_of_nodeOf hna) (drawn_of_nodeOf hnb) a.id b.id
    (h.idOf_node hsh hna) (h.idOf_node hsh' hnb) hpa hpb

end Ranked

/-! ### What an order does -/

section Sent

variable {D : Doubles} {ids ids' : List String} {t : ℚ} {sh sh' sh'' : Json} {l l' l'' : List Json}
  {i : Nat} {f : Json → Json}

def IsNamed (ids : List String) (sh : Json) : Prop :=
  ∃ id ∈ ids, idOf sh = some id

/-- A shape of some ids is given a number, and any other keeps its own. -/
structure Sent (ids : List String) (t : ℚ) (sh sh' : Json) : Prop where
  id : idOf sh' = idOf sh
  kind : kindOf sh' = kindOf sh
  named : IsNamed ids sh → zOf sh' = t
  other : ¬IsNamed ids sh → zOf sh' = zOf sh

theorem Sent.refl (sh : Json) : Sent [] t sh sh :=
  ⟨rfl, rfl, fun h => absurd h.choose_spec.1 List.not_mem_nil, fun _ => rfl⟩

theorem Sent.comp (h : Sent ids t sh sh') (h' : Sent ids' t sh' sh'') :
    Sent (ids ++ ids') t sh sh'' := by
  have hsame : IsNamed ids' sh' ↔ IsNamed ids' sh := by rw [IsNamed, IsNamed, h.id]
  have hmore : IsNamed (ids ++ ids') sh ↔ IsNamed ids sh ∨ IsNamed ids' sh := by
    simp only [IsNamed, List.mem_append, or_and_right, exists_or]
  refine ⟨h'.id.trans h.id, h'.kind.trans h.kind, fun hin => ?_, fun hout => ?_⟩
  · by_cases hlater : IsNamed ids' sh
    · exact h'.named (hsame.mpr hlater)
    · rw [h'.other (mt hsame.mp hlater)]
      exact h.named ((hmore.mp hin).resolve_right hlater)
  · rw [hmore, not_or] at hout
    rw [h'.other (mt hsame.mp hout.2), h.other hout.1]

theorem forall₂_comp {R S T : Json → Json → Prop} (hcomp : ∀ a b c, R a b → S b c → T a c)
    (h : List.Forall₂ R l l') (h' : List.Forall₂ S l' l'') : List.Forall₂ T l l'' := by
  induction h generalizing l'' with
  | nil =>
    cases h'
    exact .nil
  | cons hab _ ih =>
    cases h' with
    | cons hbc htail => exact .cons (hcomp _ _ _ hab hbc) (ih htail)

/-- A relation of shapes holds of two lists that differ in one place where it holds there. -/
theorem forall₂_modify {R : Json → Json → Prop} {a : Json} (hi : l[i]? = some a) (h : R a (f a))
    (hr : ∀ (j : Nat) b, l[j]? = some b → j ≠ i → R b b) : List.Forall₂ R l (l.modify i f) := by
  induction l generalizing i with
  | nil => cases hi
  | cons b l ih =>
    cases i with
    | zero =>
      cases hi
      refine .cons h ?_
      have hrest : ∀ b ∈ l, R b b := by
        intro b hb
        obtain ⟨j, hj, rfl⟩ := List.mem_iff_getElem.mp hb
        exact hr (j + 1) l[j] (List.getElem?_eq_getElem hj) (Nat.succ_ne_zero j)
      exact List.forall₂_same.mpr hrest
    | succ i =>
      refine .cons (hr 0 b rfl (Nat.succ_ne_zero i).symm) (ih hi fun j b hb hne => ?_)
      exact hr (j + 1) b hb fun heq => hne (Nat.succ.inj heq)

theorem names_of_forall₂ (h : List.Forall₂ (fun sh sh' => idOf sh' = idOf sh) l l') :
    Named.names idOf l' = Named.names idOf l := by
  induction h with
  | nil => rfl
  | cons hab _ ih =>
    simp only [Named.names, List.filterMap_cons, hab] at ih ⊢
    rw [ih]

/-- The shape an id names is given a number, where no other has its id. -/
theorem forall₂_sent_modify {id : String} (hl : Named.Distinct idOf l)
    (hi : Named.place idOf id l = some i)
    (hf : ∀ sh, l[i]? = some sh → idOf (f sh) = idOf sh ∧ kindOf (f sh) = kindOf sh ∧
      zOf (f sh) = t) : List.Forall₂ (Sent [id] t) l (l.modify i f) := by
  obtain ⟨sh, hsh, hid⟩ := Named.place_eq_some hi
  obtain ⟨hfid, hfkind, hfz⟩ := hf sh hsh
  refine forall₂_modify hsh ⟨hfid, hfkind, fun _ => hfz, fun hnot => ?_⟩ fun j b hb hne => ?_
  · exact absurd ⟨id, List.mem_singleton_self id, hid⟩ hnot
  · refine ⟨rfl, rfl, fun hin => ?_, fun _ => rfl⟩
    obtain ⟨id', hid', hb'⟩ := hin
    rw [List.mem_singleton.mp hid'] at hb'
    exact absurd (hl.unique hsh hid hb hb') hne

theorem mem_before {R : Json → Json → Prop} (h : List.Forall₂ R l l') (hsh : sh' ∈ l') :
    ∃ sh ∈ l, R sh sh' := by
  induction h with
  | nil => cases hsh
  | cons hab _ ih =>
    obtain rfl | hsh := List.mem_cons.mp hsh
    · exact ⟨_, List.mem_cons_self, hab⟩
    · obtain ⟨sh, hsh, hsent⟩ := ih hsh
      exact ⟨sh, List.mem_cons_of_mem _ hsh, hsent⟩

theorem mem_of_forall₂ {R : Json → Json → Prop} (h : List.Forall₂ R l l') (hsh : sh ∈ l) :
    ∃ sh' ∈ l', R sh sh' := by
  induction h with
  | nil => cases hsh
  | cons hab _ ih =>
    obtain rfl | hsh := List.mem_cons.mp hsh
    · exact ⟨_, List.mem_cons_self, hab⟩
    · obtain ⟨sh', hsh', hr⟩ := ih hsh
      exact ⟨sh', List.mem_cons_of_mem _ hsh', hr⟩

theorem Sent.drawn_iff (h : Sent ids t sh sh') : Drawn sh' ↔ Drawn sh := by
  rw [Drawn, Drawn, h.kind]

/-- Shapes sent above every other shape are over them. -/
theorem over_of_sent {p : String → Prop} (h : List.Forall₂ (Sent ids t) l l')
    (hp : ∀ sh ∈ l, Drawn sh → ∀ id, idOf sh = some id → (p id ↔ id ∈ ids))
    (hlt : ∀ sh ∈ l, Drawn sh → ¬IsNamed ids sh → zOf sh < t) : Over p l' := by
  intro a' ha' b' hb' hda hdb id id' hid hid' hpa hpb
  obtain ⟨a, ha, hsa⟩ := mem_before h ha'
  obtain ⟨b, hb, hsb⟩ := mem_before h hb'
  rw [hsa.drawn_iff] at hda
  rw [hsb.drawn_iff] at hdb
  rw [hsa.id] at hid
  rw [hsb.id] at hid'
  have hother : ¬IsNamed ids b := by
    rintro ⟨id'', hmem, hid''⟩
    rw [hid'] at hid''
    cases hid''
    exact hpb ((hp b hb hdb id' hid').mpr hmem)
  rw [hsb.other hother, hsa.named ⟨id, (hp a ha hda id hid).mp hpa, hid⟩]
  exact hlt b hb hdb hother

/-- Shapes sent below every other shape are under them. -/
theorem under_of_sent {p : String → Prop} (h : List.Forall₂ (Sent ids t) l l')
    (hp : ∀ sh ∈ l, Drawn sh → ∀ id, idOf sh = some id → (p id ↔ id ∈ ids))
    (hlt : ∀ sh ∈ l, Drawn sh → ¬IsNamed ids sh → t < zOf sh) : Over (fun id => ¬p id) l' := by
  intro a' ha' b' hb' hda hdb id id' hid hid' hpa hpb
  obtain ⟨a, ha, hsa⟩ := mem_before h ha'
  obtain ⟨b, hb, hsb⟩ := mem_before h hb'
  rw [hsa.drawn_iff] at hda
  rw [hsb.drawn_iff] at hdb
  rw [hsa.id] at hid
  rw [hsb.id] at hid'
  have hother : ¬IsNamed ids a := by
    rintro ⟨id'', hmem, hid''⟩
    rw [hid] at hid''
    cases hid''
    exact hpa ((hp a ha hda id hid).mpr hmem)
  rw [hsa.other hother, hsb.named ⟨id', (hp b hb hdb id' hid').mp (not_not.mp hpb), hid'⟩]
  exact hlt a ha hda hother

end Sent

/-! ### The numbers the tools give -/

section Tops

variable {doc : Json} {sh : Json} {m : ℚ} {ids : List String}

/-- The whole stacking numbers of a document. -/
@[grind =]
def wholeZs (doc : Json) : List ℤ :=
  (shapesOf doc).filterMap fun sh => (sh.atKey "z").asI64

/-- Of the shapes drawn that are not named, none has a number that is not whole and one or more above
the greatest that is. -/
def TopWhole (ids : List String) (doc : Json) : Prop :=
  ∀ sh ∈ shapesOf doc, Drawn sh → ¬IsNamed ids sh → (sh.atKey "z").asI64 = none →
    zOf sh < ((wholeZs doc).max?.getD 0 : ℤ) + 1

/-- Of the shapes drawn that are not named, none has a number that is not whole and one or more below
the least that is. -/
def BottomWhole (ids : List String) (doc : Json) : Prop :=
  ∀ sh ∈ shapesOf doc, Drawn sh → ¬IsNamed ids sh → (sh.atKey "z").asI64 = none →
    ((wholeZs doc).min?.getD 0 : ℤ) - 1 < zOf sh

theorem i64_eq {i : ℤ} (h : |(i : ℚ)| ≤ 2 ^ 53) : i64 i = i := by
  have hle : |i| ≤ 2 ^ 53 := by exact_mod_cast h
  obtain ⟨hlow, hhigh⟩ := abs_le.mp hle
  rw [i64]
  exact Int.bmod_eq_of_le (by norm_num; omega) (by norm_num; omega)

theorem asI64_eq {v : Json} {i : ℤ} (h : v.asI64 = some i) : v = .num i 0 := by
  rw [Json.asI64.eq_def] at h
  split at h
  · split at h
    · cases h
      rfl
    · cases h
  · cases h

theorem mem_wholes {i : ℤ} (h : i ∈ wholeZs doc) :
    ∃ sh ∈ shapesOf doc, sh.atKey "z" = .num i 0 := by
  obtain ⟨sh, hsh, hi⟩ := List.mem_filterMap.mp h
  exact ⟨sh, hsh, asI64_eq hi⟩

theorem zOf_num {i : ℤ} (h : sh.atKey "z" = .num i 0) : zOf sh = i := by
  rw [zOf, h, valueOf_num]

theorem Fits.top (h : Fits m (shapesOf doc)) (hm : m ≤ 2 ^ 52) :
    |(((wholeZs doc).max?.getD 0 : ℤ) : ℚ)| + m ≤ 2 ^ 52 := by
  cases hmax : (wholeZs doc).max? with
  | none =>
    rw [Option.getD_none, Int.cast_zero, abs_zero, zero_add]
    exact hm
  | some top =>
    obtain ⟨sh, hsh, hz⟩ := mem_wholes (List.max?_mem hmax)
    rw [Option.getD_some, ← zOf_num hz]
    exact h sh hsh

theorem Fits.bottom (h : Fits m (shapesOf doc)) (hm : m ≤ 2 ^ 52) :
    |(((wholeZs doc).min?.getD 0 : ℤ) : ℚ)| + m ≤ 2 ^ 52 := by
  cases hmin : (wholeZs doc).min? with
  | none =>
    rw [Option.getD_none, Int.cast_zero, abs_zero, zero_add]
    exact hm
  | some bottom =>
    obtain ⟨sh, hsh, hz⟩ := mem_wholes (List.min?_mem hmin)
    rw [Option.getD_some, ← zOf_num hz]
    exact h sh hsh

/-- A shape's number is below the next free one. -/
theorem lt_top (h : TopWhole ids doc) (hsh : sh ∈ shapesOf doc) (hdrawn : Drawn sh)
    (hother : ¬IsNamed ids sh) : zOf sh < ((wholeZs doc).max?.getD 0 : ℤ) + 1 := by
  cases hz : (sh.atKey "z").asI64 with
  | none => exact h sh hsh hdrawn hother hz
  | some i =>
    have hmem : i ∈ wholeZs doc := List.mem_filterMap.mpr ⟨sh, hsh, hz⟩
    obtain ⟨top, htop⟩ := Option.isSome_iff_exists.mp (List.isSome_max?_of_mem hmem)
    have hle : i ≤ top := (List.max?_eq_some_iff.mp htop).2 i hmem
    rw [htop, Option.getD_some]
    rw [zOf_num (asI64_eq hz)]
    exact_mod_cast Int.lt_add_one_of_le hle

theorem bottom_lt (h : BottomWhole ids doc) (hsh : sh ∈ shapesOf doc) (hdrawn : Drawn sh)
    (hother : ¬IsNamed ids sh) : ((wholeZs doc).min?.getD 0 : ℤ) - 1 < zOf sh := by
  cases hz : (sh.atKey "z").asI64 with
  | none => exact h sh hsh hdrawn hother hz
  | some i =>
    have hmem : i ∈ wholeZs doc := List.mem_filterMap.mpr ⟨sh, hsh, hz⟩
    obtain ⟨bottom, hbottom⟩ := Option.isSome_iff_exists.mp (List.isSome_min?_of_mem hmem)
    have hle : bottom ≤ i := (List.min?_eq_some_iff.mp hbottom).2 i hmem
    rw [hbottom, Option.getD_some]
    rw [zOf_num (asI64_eq hz)]
    exact_mod_cast Int.sub_one_lt_of_le hle

theorem nextZ_eq (h : Fits m (shapesOf doc)) (hm : m ≤ 2 ^ 52) (hone : 1 ≤ m) :
    nextZ doc = (wholeZs doc).max?.getD 0 + 1 := by
  refine i64_eq ?_
  have htop := h.top hm
  rw [wholeZs] at htop
  push_cast
  have htriangle := abs_add_le ((((shapesOf doc).filterMap fun sh =>
    (sh.atKey "z").asI64).max?.getD 0 : ℤ) : ℚ) 1
  rw [abs_one] at htriangle
  linarith

end Tops

/-! ### What the tools do to the numbers -/

/-- A shape edited, neither its id nor its stacking number. -/
structure SameZ (sh sh' : Json) : Prop where
  id : idOf sh' = idOf sh
  z : sh'.atKey "z" = sh.atKey "z"

theorem SameZ.refl (sh : Json) : SameZ sh sh :=
  ⟨rfl, rfl⟩

theorem SameZ.trans {sh sh' sh'' : Json} (h : SameZ sh sh') (h' : SameZ sh' sh'') : SameZ sh sh'' :=
  ⟨h'.id.trans h.id, h'.z.trans h.z⟩

theorem SameZ.setKey {key : String} (h : key ∉ ["id", "z"]) (sh v : Json) :
    SameZ sh (sh.setKey key v) := by
  simp only [List.mem_cons, List.not_mem_nil, or_false, not_or] at h
  exact ⟨idOf_setKey (Ne.symm h.1) v sh, Json.atKey_setKey_ne (Ne.symm h.2) v sh⟩

/-- A shape edited, not its id, and its stacking number stays a half. -/
structure SameHalf (sh sh' : Json) : Prop where
  id : idOf sh' = idOf sh
  half : Half (zOf sh) → Half (zOf sh')

theorem SameHalf.refl (sh : Json) : SameHalf sh sh :=
  ⟨rfl, fun h => h⟩

theorem SameHalf.trans {sh sh' sh'' : Json} (h : SameHalf sh sh') (h' : SameHalf sh' sh'') :
    SameHalf sh sh'' :=
  ⟨h'.id.trans h.id, h'.half ∘ h.half⟩

theorem SameZ.half {sh sh' : Json} (h : SameZ sh sh') : SameHalf sh sh' :=
  ⟨h.id, fun hhalf => by rw [zOf, h.z]; exact hhalf⟩

theorem sameHalf_setKey (sh : Json) (i : ℤ) : SameHalf sh (sh.setKey "z" (.num i 0)) := by
  refine ⟨idOf_setKey (by decide) _ sh, fun hhalf => ?_⟩
  have hnum : Half (valueOf (.num i 0)) := by
    rw [valueOf_num]
    exact half_int i
  cases sh with
  | obj fields =>
    rw [zOf_setKey rfl]
    exact hnum
  | null => exact hnum
  | _ => exact hhalf

theorem Sent.half {ids : List String} {t : ℚ} {sh sh' : Json} (h : Sent ids t sh sh')
    (ht : Half t) : SameHalf sh sh' := by
  refine ⟨h.id, fun hhalf => ?_⟩
  by_cases hin : IsNamed ids sh
  · rw [h.named hin]
    exact ht
  · rw [h.other hin]
    exact hhalf

section Edits

variable {N : Floats} {doc doc' : Json} {edit : Json → Json} {l l' l'' : List Json}
  {R : Json → Json → Prop}

theorem forall₂_modify_of_refl {i : Nat} (hrefl : ∀ sh, R sh sh) (hedit : ∀ sh, R sh (edit sh)) :
    List.Forall₂ R l (l.modify i edit) := by
  cases hi : l[i]? with
  | none =>
    rw [List.modify_eq_self (List.getElem?_eq_none_iff.mp hi)]
    exact List.forall₂_same.mpr fun sh _ => hrefl sh
  | some a => exact forall₂_modify hi (hedit a) fun _ b _ _ => hrefl b

section Related

variable (hrefl : ∀ sh, R sh sh) (htrans : ∀ a b c, R a b → R b c → R a c)
include hrefl htrans

theorem editEach_forall₂ {ids : List String} {n : Nat} (hedit : ∀ sh, R sh (edit sh))
    (hloaded : Loaded doc) (h : editEach edit ids doc = .ok (n, doc')) :
    List.Forall₂ R (shapesOf doc) (shapesOf doc') ∧ Loaded doc' := by
  induction ids generalizing doc n with
  | nil =>
    cases h
    exact ⟨List.forall₂_same.mpr fun sh _ => hrefl sh, hloaded⟩
  | cons id rest ih =>
    rw [editEach] at h
    split at h
    · cases h
    · next i hi =>
      split at h
      · cases h
      · split at h
        · cases h
        · next m after hrest =>
          cases h
          have hfirst : List.Forall₂ R (shapesOf doc) ((shapesOf doc).modify i edit) :=
            forall₂_modify_of_refl hrefl hedit
          obtain ⟨hlater, hloaded'⟩ := ih (hloaded.withShapes _) hrest
          rw [hloaded.shapesOf_withShapes] at hlater
          exact ⟨forall₂_comp htrans hfirst hlater, hloaded'⟩

theorem lockEach_forall₂ {ids : List String} {want : Bool}
    (hedit : ∀ sh, R sh (sh.setKey "locked" (.bool want))) (hloaded : Loaded doc)
    (h : lockEach want ids doc = .ok doc') :
    List.Forall₂ R (shapesOf doc) (shapesOf doc') ∧ Loaded doc' := by
  induction ids generalizing doc with
  | nil =>
    cases h
    exact ⟨List.forall₂_same.mpr fun sh _ => hrefl sh, hloaded⟩
  | cons id rest ih =>
    rw [lockEach] at h
    split at h
    · cases h
    · next i hi =>
      have hfirst : List.Forall₂ R (shapesOf doc)
          ((shapesOf doc).modify i fun sh => sh.setKey "locked" (.bool want)) :=
        forall₂_modify_of_refl hrefl hedit
      obtain ⟨hlater, hloaded'⟩ := ih (hloaded.withShapes _) h
      rw [hloaded.shapesOf_withShapes] at hlater
      exact ⟨forall₂_comp htrans hfirst hlater, hloaded'⟩

theorem spread_forall₂ {axis : String} {gap : N.F} {placed : List (String × N.F × N.F)}
    {cursor : N.F} {moved : Nat}
    (hedit : ∀ key ∈ ["x", "y"], ∀ sh v : Json, R sh (sh.setKey key v)) (hloaded : Loaded doc) :
    List.Forall₂ R (shapesOf doc) (shapesOf (spread N axis gap placed cursor moved doc).2) ∧
      Loaded (spread N axis gap placed cursor moved doc).2 := by
  induction placed generalizing cursor moved doc with
  | nil => exact ⟨List.forall₂_same.mpr fun sh _ => hrefl sh, hloaded⟩
  | cons p rest ih =>
    obtain ⟨id, start, size⟩ := p
    rw [spread]
    split
    · exact ih hloaded
    · next i hi =>
      dsimp only
      split
      · exact ih hloaded
      · have hkey : (if axis = "x" then "x" else "y") ∈ ["x", "y"] := by
          split
          · decide
          · decide
        have hfirst : List.Forall₂ R (shapesOf doc) ((shapesOf doc).modify i fun sh =>
            sh.setKey (if axis = "x" then "x" else "y") (N.toJson (N.round cursor))) :=
          forall₂_modify_of_refl hrefl fun sh => hedit _ hkey sh _
        have hloaded' := hloaded.withShapes ((shapesOf doc).modify i fun sh =>
          sh.setKey (if axis = "x" then "x" else "y") (N.toJson (N.round cursor)))
        rw [← hloaded.shapesOf_withShapes (List.modify _ _ _)] at hfirst
        exact ⟨forall₂_comp htrans hfirst (ih hloaded').1, (ih hloaded').2⟩

end Related

/-- Edits that give every named shape one number. -/
theorem editEach_sent {ids : List String} {n : Nat} {t : ℤ}
    (hedit : ∀ sh, edit sh = sh.setKey "z" (.num t 0)) (hloaded : Loaded doc)
    (hdistinct : Named.Distinct idOf (shapesOf doc)) (h : editEach edit ids doc = .ok (n, doc')) :
    List.Forall₂ (Sent ids t) (shapesOf doc) (shapesOf doc') ∧ Loaded doc' := by
  induction ids generalizing doc n with
  | nil =>
    cases h
    exact ⟨List.forall₂_same.mpr fun sh _ => .refl sh, hloaded⟩
  | cons id rest ih =>
    rw [editEach] at h
    split at h
    · cases h
    · next i hi =>
      split at h
      · cases h
      · split at h
        · cases h
        · next m after hrest =>
          cases h
          obtain ⟨sh, hsh, hid⟩ := Named.place_eq_some hi
          have hfirst : List.Forall₂ (Sent [id] t) (shapesOf doc)
              ((shapesOf doc).modify i edit) := by
            refine forall₂_sent_modify hdistinct hi fun sh' hsh' => ?_
            rw [hsh, Option.some.injEq] at hsh'
            subst hsh'
            rw [hedit, zOf_setKey (isObject_of_idOf hid), valueOf_num]
            refine ⟨idOf_setKey (by decide) _ _, ?_, rfl⟩
            rw [kindOf, Json.atKey_setKey_ne (by decide), kindOf]
          have hdistinct' : Named.Distinct idOf ((shapesOf doc).modify i edit) :=
            hdistinct.modify fun sh => by rw [hedit, idOf_setKey (by decide)]
          rw [← hloaded.shapesOf_withShapes (List.modify _ _ _)] at hfirst hdistinct'
          obtain ⟨hlater, hloaded'⟩ := ih (hloaded.withShapes _) hdistinct' hrest
          exact ⟨forall₂_comp (fun _ _ _ => Sent.comp) hfirst hlater, hloaded'⟩

/-- Edits that go through are of shapes there are, none of them locked. -/
theorem editEach_opened {ids : List String} {n : Nat} {v : Json → Json}
    (hedit : ∀ sh, edit sh = sh.setKey "z" (v sh)) (hloaded : Loaded doc)
    (h : editEach edit ids doc = .ok (n, doc')) :
    ∀ id ∈ ids, ∃ sh ∈ shapesOf doc, idOf sh = some id ∧ locked sh = false := by
  induction ids generalizing doc n with
  | nil => exact fun _ hid => absurd hid List.not_mem_nil
  | cons id rest ih =>
    rw [editEach] at h
    split at h
    · cases h
    · next i hi =>
      split at h
      · cases h
      · next hlocked =>
        split at h
        · cases h
        · next m after hrest =>
          cases h
          obtain ⟨sh, hsh, hid⟩ := Named.place_eq_some hi
          have hopen : locked sh = false := by
            rw [List.getD_eq_getElem?_getD, hsh] at hlocked
            exact Bool.eq_false_of_not_eq_true hlocked
          intro id' hid'
          obtain rfl | hid' := List.mem_cons.mp hid'
          · exact ⟨sh, List.mem_of_getElem? hsh, hid, hopen⟩
          · have hsame : List.Forall₂ (fun a b => idOf b = idOf a ∧ locked b = locked a)
                (shapesOf doc) ((shapesOf doc).modify i edit) := by
              refine forall₂_modify_of_refl (fun _ => ⟨rfl, rfl⟩) fun a => ?_
              rw [hedit, idOf_setKey (by decide), locked, locked, Json.atKey_setKey_ne (by decide)]
              exact ⟨rfl, rfl⟩
            obtain ⟨b, hb, hbid, hbopen⟩ := ih (hloaded.withShapes _) hrest id' hid'
            rw [hloaded.shapesOf_withShapes] at hb
            obtain ⟨a, ha, haid, haopen⟩ := mem_before hsame hb
            exact ⟨a, ha, haid.symm.trans hbid, haopen.symm.trans hbopen⟩

end Edits

/-- The tools that add shapes. -/
def adding : List String :=
  ["canvas.add_shape", "canvas.add_sticky", "canvas.connect", "canvas.add_text", "canvas.duplicate"]

/-- A call adds shapes, each at the next free stacking number. -/
def AddsSome (c : ToolCall) (stored : Json) : Prop :=
  (∃ lead, Adds c stored lead) ∨ c.name = "canvas.duplicate" ∧
    Copyable (load stored) (idsOf c.params) ∧ copyIds (load stored) (idsOf c.params) ≠ []

/-- A call sends shapes there are, none of them locked, to the front or the back. -/
structure Orders (c : ToolCall) (stored : Json) (toward : Where) : Prop where
  name : c.name = "canvas.order"
  toward : textOf c.params "to" "front" = toward.label
  named : idsOf c.params ≠ []
  opened : ∀ id ∈ idsOf c.params, ∃ sh ∈ shapes stored, idOf sh = some id ∧ locked sh = false

/-- What a call needs the stacking numbers to leave free above and below them. -/
@[grind =]
def margin (c : ToolCall) : ℚ :=
  (idsOf c.params).length ^ 2 + 2

/-- What a call does to the stacking numbers. -/
inductive Stacks (c : ToolCall) (stored doc' : Json) (answered : Bool) : Prop
  | kept (kept : List.Forall₂ SameZ (shapes stored) (shapes doc')) (name : c.name ≠ "canvas.order")
  | refused (kept : shapes doc' = shapes stored) (refused : answered = false)
  | fewer (name : c.name = "canvas.delete")
      (after : ∃ i, shapes doc' = (shapes stored).eraseIdx i)
  | more (new : List Json) (name : c.name ∈ adding)
      (after : shapes doc' = shapes stored ++ new)
      (above : ∀ sh ∈ new, ∃ i : ℤ, sh.atKey "z" = .num i 0 ∧ (i : ℚ) ≤ 2 ^ 52 ∧
        (wholeZs (load stored)).max?.getD 0 + 1 ≤ i)
  | moved (moved : List.Forall₂ SameHalf (shapes stored) (shapes doc'))
      (front : textOf c.params "to" "front" ≠ "front")
      (back : textOf c.params "to" "front" ≠ "back")
  | front (toward : textOf c.params "to" "front" = "front")
      (sent : List.Forall₂ (Sent (idsOf c.params)
        ((wholeZs (load stored)).max?.getD 0 + 1 : ℤ)) (shapes stored) (shapes doc'))
  | back (toward : textOf c.params "to" "front" = "back")
      (sent : List.Forall₂ (Sent (idsOf c.params)
        ((wholeZs (load stored)).min?.getD 0 - 1 : ℤ)) (shapes stored) (shapes doc'))

section Stacks

variable {N : Floats} {c : ToolCall} {stored doc : Json} {reply : Reply}

theorem Stacks.refl (c : ToolCall) (stored : Json) {reply : Reply} (h : reply.isOk = false) :
    Stacks c stored stored reply.isOk :=
  .refused rfl h

theorem Stacks.save (h : Stacks c stored doc reply.isOk) :
    Stacks c stored (c.host.save 0 stored doc reply).2 (c.host.save 0 stored doc reply).1.isOk := by
  obtain ⟨_, hsave⟩ | ⟨_, hrefused, hkept⟩ := save_cases c.host 0 stored doc reply
  · rw [hsave]
    exact h
  · exact .refused (by rw [hkept]) hrefused

theorem two_le_margin (c : ToolCall) : 2 ≤ margin c := by
  have hsquare := sq_nonneg ((idsOf c.params).length : ℚ)
  rw [margin]
  linarith

theorem margin_le (hfits : Fits (margin c) (shapes stored)) (hm : margin c ≤ 2 ^ 52) :
    ((wholeZs (load stored)).max?.getD 0 + 1 : ℚ) ≤ 2 ^ 52 ∧
      nextZ (load stored) = (wholeZs (load stored)).max?.getD 0 + 1 := by
  have htop := Fits.top hfits hm
  have htwo := two_le_margin c
  refine ⟨?_, nextZ_eq hfits hm (by linarith)⟩
  linarith [le_abs_self (((wholeZs (load stored)).max?.getD 0 : ℤ) : ℚ)]

theorem push_stacks {sh : Json} (name : c.name ∈ adding) (hm : margin c ≤ 2 ^ 52)
    (hfits : Fits (margin c) (shapes stored)) (hz : sh.atKey "z" = .num (nextZ (load stored)) 0) :
    Stacks c stored (push stored (load stored) sh fun doc => c.host.save 0 stored doc reply).2
      (push stored (load stored) sh fun doc => c.host.save 0 stored doc reply).1.isOk := by
  rw [push]
  split
  · exact .refl c stored rfl
  · next list hlist =>
    have hshapes : list = shapes stored := by
      rw [shapes, shapesOf, hlist, Option.getD_some]
    have hloaded := loaded_load stored
    obtain ⟨hle, hnext⟩ := margin_le hfits hm
    refine .save (.more [sh] name ?_ fun sh' hsh' => ?_)
    · rw [(hloaded.withShapes _).shapes, hloaded.shapesOf_withShapes, hshapes]
    · rw [List.mem_singleton.mp hsh', hz, hnext]
      exact ⟨_, rfl, by push_cast; exact hle, le_rfl⟩

theorem editOne_stacks {guarded : Bool} {id did : String} {edit : Json → Json}
    (name : c.name ≠ "canvas.order") (hedit : ∀ sh, SameZ sh (edit sh)) :
    Stacks c stored (editOne c.host stored guarded id edit did).2
      (editOne c.host stored guarded id edit did).1.isOk := by
  simp only [editOne]
  split
  · exact .refl c stored rfl
  · next i hi =>
    split
    · exact .refl c stored rfl
    · have hloaded := loaded_load stored
      refine .save (.kept ?_ name)
      rw [(hloaded.withShapes _).shapes, hloaded.shapesOf_withShapes]
      exact forall₂_modify_of_refl SameZ.refl hedit

/-- A key written that is not the shapes. -/
theorem setKey_stacks {key : String} {v : Json} (name : c.name ≠ "canvas.order")
    (h : "shapes" ≠ key) {b : Bool} : Stacks c stored ((load stored).setKey key v) b := by
  refine .kept ?_ name
  rw [((loaded_load stored).setKey key v).shapes, shapesOf_setKey h]
  exact List.forall₂_same.mpr fun sh _ => .refl sh

theorem delete_stacks (name : c.name = "canvas.delete") :
    Stacks c stored (delete c.host c.params stored).2
      (delete c.host c.params stored).1.isOk := by
  simp only [delete]
  split
  · exact .refl c stored rfl
  · next i hi =>
    split
    · exact .refl c stored rfl
    · have hloaded := loaded_load stored
      refine .save (.fewer name ⟨i, ?_⟩)
      rw [(hloaded.withShapes _).shapes, hloaded.shapesOf_withShapes]
      rfl

theorem lock_stacks (name : c.name = "canvas.lock") :
    Stacks c stored (lock c.host c.params stored).2 (lock c.host c.params stored).1.isOk := by
  have hname : c.name ≠ "canvas.order" := by
    rw [name]
    decide
  simp only [lock]
  split
  · exact .refl c stored rfl
  · split
    · exact .refl c stored rfl
    · next doc h =>
      obtain ⟨hkept, hloaded⟩ := lockEach_forall₂ SameZ.refl (fun _ _ _ => SameZ.trans)
        (fun sh => .setKey (by decide) sh _) (loaded_load stored) h
      refine .save (.kept ?_ hname)
      rw [hloaded.shapes]
      exact hkept

theorem align_stacks (name : c.name = "canvas.align") :
    Stacks c stored (align N c.host c.params stored).2
      (align N c.host c.params stored).1.isOk := by
  have hname : c.name ≠ "canvas.order" := by
    rw [name]
    decide
  simp only [align]
  split
  · exact .refl c stored rfl
  · split
    · exact .refl c stored rfl
    · simp only [edited]
      split
      · exact .refl c stored rfl
      · next n doc h =>
        obtain ⟨hkept, hloaded⟩ := editEach_forall₂ SameZ.refl (fun _ _ _ => SameZ.trans)
          (fun sh => by
            split
            · exact .refl sh
            · split
              · exact .setKey (by decide) sh _
              · exact .setKey (by decide) sh _
              · exact .setKey (by decide) sh _
              · exact .setKey (by decide) sh _
              · exact .setKey (by decide) sh _
              · exact .setKey (by decide) sh _
              · exact .refl sh) (loaded_load stored) h
        refine .save (.kept ?_ hname)
        rw [hloaded.shapes]
        exact hkept

theorem distribute_stacks (name : c.name = "canvas.distribute") :
    Stacks c stored (distribute N c.host c.params stored).2
      (distribute N c.host c.params stored).1.isOk := by
  have hname : c.name ≠ "canvas.order" := by
    rw [name]
    decide
  simp only [distribute]
  split
  · exact .refl c stored rfl
  · split
    · exact .refl c stored rfl
    · split
      · exact .refl c stored rfl
      · split
        · obtain ⟨hkept, hloaded⟩ := spread_forall₂ SameZ.refl (fun _ _ _ => SameZ.trans)
            (fun key hkey sh v => by
              simp only [List.mem_cons, List.not_mem_nil, or_false] at hkey
              obtain rfl | rfl := hkey
              · exact .setKey (by decide) sh v
              · exact .setKey (by decide) sh v) (loaded_load stored)
          refine .save (.kept ?_ hname)
          rw [hloaded.shapes]
          exact hkept
        · exact .refl c stored rfl

theorem order_stacks (hdistinct : Named.Distinct idOf (shapes stored)) (hm : margin c ≤ 2 ^ 52)
    (hfits : Fits (margin c) (shapes stored)) :
    Stacks c stored (order c.host c.params stored).2 (order c.host c.params stored).1.isOk := by
  have hloaded := loaded_load stored
  obtain ⟨-, hnext⟩ := margin_le hfits hm
  have hbottom : i64 ((wholeZs (load stored)).min?.getD 0 - 1) =
      (wholeZs (load stored)).min?.getD 0 - 1 := by
    refine i64_eq ?_
    have hlow := Fits.bottom hfits hm
    have htriangle := abs_sub (((wholeZs (load stored)).min?.getD 0 : ℤ) : ℚ) 1
    rw [abs_one] at htriangle
    push_cast
    linarith [two_le_margin c]
  simp only [order]
  split
  · exact .refl c stored rfl
  · simp only [edited]
    split
    · exact .refl c stored rfl
    · next n doc h =>
      refine .save ?_
      by_cases hfront : textOf c.params "to" "front" = "front"
      · obtain ⟨hsent, hloaded'⟩ := editEach_sent (t := nextZ (load stored))
          (fun sh => by rw [hfront]; rfl) hloaded hdistinct h
        refine .front hfront ?_
        rw [hloaded'.shapes, ← hnext]
        exact hsent
      · by_cases hback : textOf c.params "to" "front" = "back"
        · obtain ⟨hsent, hloaded'⟩ := editEach_sent
            (t := i64 ((wholeZs (load stored)).min?.getD 0 - 1))
            (fun sh => by rw [hback]; rfl) hloaded hdistinct h
          refine .back hback ?_
          rw [hloaded'.shapes, ← hbottom]
          exact hsent
        · obtain ⟨hmoved, hloaded'⟩ := editEach_forall₂ SameHalf.refl (fun _ _ _ => SameHalf.trans)
            (fun sh => sameHalf_setKey sh _) hloaded h
          refine .moved ?_ hfront hback
          rw [hloaded'.shapes]
          exact hmoved

/-- An order that goes through is of shapes there are, none of them locked. -/
theorem orders_of_ok (toward : Where) (name : c.name = "canvas.order")
    (htoward : textOf c.params "to" "front" = toward.label)
    (h : (call N c stored).1.isOk = true) :
    Orders c stored toward ∧ c.host.docPut 0 = .ok () := by
  simp only [call, name] at h
  simp only [order] at h
  split at h
  · cases h
  · next hsome =>
    simp only [edited] at h
    split at h
    · cases h
    · next n doc hedits =>
      have hput : c.host.docPut 0 = .ok () := by
        by_contra hput
        let toward := textOf c.params "to" "front"
        obtain ⟨hput', -⟩ | ⟨-, hrefused⟩ := save_cases c.host 0 stored doc
          (.ok (idsJson (idsOf c.params)) s!"moved {n} shape(s) {toward}")
        · exact hput hput'
        · exact Bool.false_ne_true (hrefused.1.symm.trans h)
      refine ⟨⟨name, htoward, ?_, ?_⟩, hput⟩
      · rintro hnil
        rw [hnil] at hsome
        exact hsome rfl
      · exact editEach_opened (fun _ => rfl) (loaded_load stored) hedits

end Stacks

section Copies

variable {N : Floats} {c : ToolCall} {stored doc doc₀ doc' : Json} {m : ℚ}

theorem copyOf_z (N : Floats) (doc : Json) {sh : Json} (hobject : sh.isObject = true)
    (newId : String) (n : Nat) :
    (copyOf N doc sh newId (n + 1)).atKey "z" = .num (i64 (nextZ doc + n)) 0 := by
  simp only [copyOf]
  rw [Json.atKey_setKey_ne (by decide), Json.atKey_setKey (Json.isObject_setKey _ _
    (Json.isObject_setKey _ _ (Json.isObject_setKey _ _ hobject)))]
  rfl

/-- The greatest whole number of a document with copies that stand higher and within a bound. -/
theorem top_copied {new : List Json} (bound : ℤ)
    (hshapes : shapesOf doc = shapesOf doc₀ ++ new)
    (hnew : ∀ sh ∈ new, ∃ i : ℤ, sh.atKey "z" = .num i 0 ∧
      (wholeZs doc₀).max?.getD 0 + 1 ≤ i ∧ i ≤ bound)
    (hbound : (wholeZs doc₀).max?.getD 0 ≤ bound) (hfit : |(bound : ℚ)| ≤ 2 ^ 52)
    (hfit₀ : |(((wholeZs doc₀).max?.getD 0 : ℤ) : ℚ)| ≤ 2 ^ 52) :
    (wholeZs doc₀).max?.getD 0 ≤ (wholeZs doc).max?.getD 0 ∧
      (wholeZs doc).max?.getD 0 ≤ bound := by
  have hwhole : wholeZs doc = wholeZs doc₀ ++ new.filterMap fun sh => (sh.atKey "z").asI64 := by
    rw [wholeZs, hshapes, List.filterMap_append, wholeZs]
  have hcopies : ∀ i ∈ new.filterMap fun sh => (sh.atKey "z").asI64,
      (wholeZs doc₀).max?.getD 0 + 1 ≤ i ∧ i ≤ bound := by
    intro i hi
    obtain ⟨sh, hsh, hz⟩ := List.mem_filterMap.mp hi
    obtain ⟨j, hj, hlow, hhigh⟩ := hnew sh hsh
    have heq := asI64_eq hz
    rw [hj] at heq
    cases heq
    exact ⟨hlow, hhigh⟩
  cases new with
  | nil =>
    rw [hwhole, List.filterMap_nil, List.append_nil]
    exact ⟨le_rfl, hbound⟩
  | cons sh new =>
    obtain ⟨j, hj, hlow, hhigh⟩ := hnew sh List.mem_cons_self
    have hlow' : |(wholeZs doc₀).max?.getD 0| ≤ 2 ^ 52 := by exact_mod_cast hfit₀
    have hhigh' : |bound| ≤ 2 ^ 52 := by exact_mod_cast hfit
    have hread : (sh.atKey "z").asI64 = some j := by
      rw [hj, Json.asI64, if_pos]
      obtain ⟨h₁, h₂⟩ := abs_le.mp hlow'
      obtain ⟨h₃, h₄⟩ := abs_le.mp hhigh'
      constructor
      · omega
      · omega
    have hmem : j ∈ wholeZs doc := by
      rw [hwhole]
      exact List.mem_append_right _ (List.mem_filterMap.mpr ⟨sh, List.mem_cons_self, hread⟩)
    obtain ⟨top, htop⟩ := Option.isSome_iff_exists.mp (List.isSome_max?_of_mem hmem)
    obtain ⟨hin, hall⟩ := List.max?_eq_some_iff.mp htop
    rw [htop, Option.getD_some]
    refine ⟨by linarith [hall j hmem], ?_⟩
    rw [hwhole] at hin
    obtain hold | hcopy := List.mem_append.mp hin
    · obtain ⟨top₀, htop₀⟩ := Option.isSome_iff_exists.mp (List.isSome_max?_of_mem hold)
      rw [htop₀, Option.getD_some] at hbound
      exact ((List.max?_eq_some_iff.mp htop₀).2 top hold).trans hbound
    · exact (hcopies top hcopy).2

/-- Copies made one after another: each gets a number above every whole number of the document, and
the `n`-th one at most `n ^ 2` above. -/
theorem copyEach_above {ids made made' : List String} {new : List Json}
    (hshapes : shapesOf doc = shapesOf doc₀ ++ new) (hloaded : Loaded doc)
    (hfit : |(((wholeZs doc₀).max?.getD 0 : ℤ) : ℚ)| + (made.length + ids.length) ^ 2 + 2 ≤ 2 ^ 52)
    (hnew : ∀ sh ∈ new, ∃ i : ℤ, sh.atKey "z" = .num i 0 ∧ (wholeZs doc₀).max?.getD 0 + 1 ≤ i ∧
      i ≤ (wholeZs doc₀).max?.getD 0 + made.length ^ 2)
    (h : copyEach N ids doc made = .ok (doc', made')) :
    ∃ new', shapesOf doc' = shapesOf doc₀ ++ new' ∧ Loaded doc' ∧
      ∀ sh ∈ new', ∃ i : ℤ, sh.atKey "z" = .num i 0 ∧ (i : ℚ) ≤ 2 ^ 52 ∧
        (wholeZs doc₀).max?.getD 0 + 1 ≤ i := by
  induction ids generalizing doc made new with
  | nil =>
    cases h
    refine ⟨new, hshapes, hloaded, fun sh hsh => ?_⟩
    obtain ⟨i, hi, hlow, hhigh⟩ := hnew sh hsh
    refine ⟨i, hi, ?_, hlow⟩
    have hhigh' : (i : ℚ) ≤ ((wholeZs doc₀).max?.getD 0 : ℤ) + made'.length ^ 2 := by
      exact_mod_cast hhigh
    simp only [List.length_nil, Nat.cast_zero, add_zero] at hfit
    linarith [le_abs_self (((wholeZs doc₀).max?.getD 0 : ℤ) : ℚ)]
  | cons id rest ih =>
    rw [copyEach] at h
    split at h
    · cases h
    · next i hi =>
      dsimp only at h
      have hlength : ((made.length : ℚ) + 1 + rest.length) = made.length + (id :: rest).length := by
        rw [List.length_cons]
        push_cast
        ring
      split at h
      · refine ih hshapes hloaded ?_ hnew h
        have hshorter : ((made.length : ℚ) + rest.length) ^ 2 ≤
            (made.length + (id :: rest).length) ^ 2 := by
          rw [← hlength]
          gcongr
          linarith
        linarith
      · obtain ⟨_, hid⟩ := getD_of_shapeIndex hi
        have hmade : ((made.length : ℚ) + 1) ^ 2 ≤ (made.length + (id :: rest).length) ^ 2 := by
          rw [← hlength]
          exact pow_le_pow_left₀ (by positivity)
            (by linarith [(Nat.cast_nonneg rest.length : (0 : ℚ) ≤ rest.length)]) 2
        have hsquare : ((made.length : ℚ)) ^ 2 + made.length + 1 ≤ (made.length + 1) ^ 2 := by
          nlinarith [(Nat.cast_nonneg made.length : (0 : ℚ) ≤ made.length)]
        have hlen := (Nat.cast_nonneg made.length : (0 : ℚ) ≤ made.length)
        have hpow : (0 : ℚ) ≤ (made.length : ℚ) ^ 2 := by positivity
        obtain ⟨hneg, hpos⟩ := abs_le.mp (le_refl |(((wholeZs doc₀).max?.getD 0 : ℤ) : ℚ)|)
        obtain ⟨hlow, hhigh⟩ := top_copied ((wholeZs doc₀).max?.getD 0 + made.length ^ 2)
          hshapes hnew (le_add_of_nonneg_right (by positivity)) (by
            push_cast
            rw [abs_le]
            constructor
            · linarith
            · linarith) (by linarith)
        -- the number of this copy
        have hlowQ : (((wholeZs doc₀).max?.getD 0 : ℤ) : ℚ) ≤ ((wholeZs doc).max?.getD 0 : ℤ) := by
          exact_mod_cast hlow
        have hhighQ : (((wholeZs doc).max?.getD 0 : ℤ) : ℚ) ≤
            ((wholeZs doc₀).max?.getD 0 : ℤ) + made.length ^ 2 := by
          exact_mod_cast hhigh
        have hnext : nextZ doc = (wholeZs doc).max?.getD 0 + 1 := by
          refine i64_eq ?_
          change |(((wholeZs doc).max?.getD 0 + 1 : ℤ) : ℚ)| ≤ _
          push_cast
          rw [abs_le]
          constructor
          · linarith
          · linarith
        have hz : i64 (nextZ doc + made.length) = (wholeZs doc).max?.getD 0 + 1 + made.length := by
          rw [hnext]
          refine i64_eq ?_
          push_cast
          rw [abs_le]
          constructor
          · linarith
          · linarith
        have hcopy := copyOf_z N doc (isObject_of_idOf hid) s!"{id}_{made.length + 1}" made.length
        rw [hz] at hcopy
        generalize copyOf N doc ((shapesOf doc).getD i .null) s!"{id}_{made.length + 1}"
          (made.length + 1) = copy at h hcopy
        have hshapes' : shapesOf (withShapes doc (shapesOf doc ++ [copy])) =
            shapesOf doc₀ ++ (new ++ [copy]) := by
          rw [hloaded.shapesOf_withShapes, hshapes, List.append_assoc]
        refine ih hshapes' (hloaded.withShapes _) ?_ ?_ h
        · rw [List.length_append, List.length_singleton]
          push_cast
          rw [hlength]
          exact hfit
        · rw [List.length_append, List.length_singleton]
          intro sh hsh
          obtain hsh | hsh := List.mem_append.mp hsh
          · obtain ⟨j, hj, hjlow, hjhigh⟩ := hnew sh hsh
            refine ⟨j, hj, hjlow, ?_⟩
            push_cast
            linarith
          · rw [List.mem_singleton.mp hsh]
            refine ⟨_, hcopy, ?_, ?_⟩
            · linarith
            · push_cast
              linarith

theorem duplicate_stacks (name : c.name = "canvas.duplicate") (hm : margin c ≤ 2 ^ 52)
    (hfits : Fits (margin c) (shapes stored)) :
    Stacks c stored (duplicate N c.host c.params stored).2
      (duplicate N c.host c.params stored).1.isOk := by
  have hname : c.name ∈ adding := by simp [name, adding]
  simp only [duplicate]
  split
  · exact .refl c stored rfl
  · split
    · exact .refl c stored rfl
    · next doc made hcopy =>
      split
      · exact .refl c stored rfl
      · split
        · exact .refl c stored rfl
        · have hfit := Fits.top hfits hm
          rw [margin] at hfit
          obtain ⟨new, hshapes, hloaded, habove⟩ := copyEach_above (List.append_nil _).symm
            (loaded_load stored) (by
              rw [List.length_nil, Nat.cast_zero, zero_add]
              linarith) (by simp) hcopy
          split
          · refine .more new hname ?_ habove
            rw [hloaded.shapes, hshapes, shapes]
          · refine .more new hname ?_ habove
            rw [(hloaded.setKey "selection" _).shapes, shapesOf_setKey (by decide), hshapes, shapes]

end Copies

/-- **What a call does to the stacking numbers**, of a board whose numbers fit. -/
theorem stacks_of {N : Floats} {c : ToolCall} {stored : Json}
    (hdistinct : Named.Distinct idOf (shapes stored)) (hm : margin c ≤ 2 ^ 52)
    (hfits : Fits (margin c) (shapes stored)) :
    Stacks c stored (call N c stored).2 (call N c stored).1.isOk := by
  simp only [call]
  split
  · next name => exact .kept (List.forall₂_same.mpr fun sh _ => .refl sh) (by rw [name]; decide)
  · next name =>
    simp only [addShape]
    split
    · exact .refl c stored rfl
    · exact push_stacks (by simp [name, adding]) hm hfits rfl
  · next name =>
    simp only [addShape]
    split
    · exact .refl c stored rfl
    · exact push_stacks (by simp [name, adding]) hm hfits rfl
  · next name =>
    refine editOne_stacks (by rw [name]; decide) fun sh => ?_
    exact (SameZ.setKey (by decide) sh _).trans (.setKey (by decide) _ _)
  · next name =>
    refine editOne_stacks (by rw [name]; decide) fun sh => ?_
    exact (SameZ.setKey (by decide) sh _).trans (.setKey (by decide) _ _)
  · next name =>
    exact editOne_stacks (by rw [name]; decide) fun sh => .setKey (by decide) sh _
  · next name =>
    simp only [setFill]
    split
    · exact .refl c stored rfl
    · exact editOne_stacks (by rw [name]; decide) fun sh => .setKey (by decide) sh _
  · next name => exact delete_stacks name
  · next name =>
    simp only [connect]
    split
    · exact .refl c stored rfl
    · split
      · exact .refl c stored rfl
      · exact push_stacks (by simp [name, adding]) hm hfits rfl
  · next name =>
    simp only [addFrame]
    split
    · exact .refl c stored rfl
    · exact .save (setKey_stacks (by rw [name]; decide) (by decide))
  · next name => exact .save (setKey_stacks (by rw [name]; decide) (by decide))
  · next name =>
    simp only [select]
    split
    · exact .refl c stored rfl
    · exact .save (setKey_stacks (by rw [name]; decide) (by decide))
  · next name => exact .kept (List.forall₂_same.mpr fun sh _ => .refl sh) (by rw [name]; decide)
  · next name =>
    simp only [addText]
    split
    · exact .refl c stored rfl
    · exact push_stacks (by simp [name, adding]) hm hfits rfl
  · next name => exact duplicate_stacks name hm hfits
  · exact order_stacks hdistinct hm hfits
  · next name => exact lock_stacks name
  · next name => exact align_stacks name
  · next name => exact distribute_stacks name
  · next name =>
    simp only [exportOutline]
    split
    · exact .refl c stored rfl
    · exact .save (setKey_stacks (by rw [name]; decide) (by decide))
  · exact .refl c stored rfl

/-! ### What the editor does to the numbers -/

section Putting

variable {D : Doubles} {l : List Json} {set : List (Node × Rest)} {n : Node} {rest : Rest}
  {sh : Json}

theorem idOf_write (rest : Rest) (sh : Json) : idOf (rest.write sh) = idOf sh := by
  rw [idOf, rest.atKey_write sh "id" (by decide), idOf]

theorem zOf_write (rest : Rest) (sh : Json) : zOf (rest.write sh) = zOf sh := by
  rw [zOf, rest.atKey_write sh "z" (by decide), zOf]

theorem idOf_shapeOf (n : Node) (rest : Rest) : idOf (shapeOf n rest) = some n.id := by
  rw [shapeOf, idOf_write]
  rfl

theorem zOf_shapeOf (h : Half n.z) (rest : Rest) : zOf (shapeOf n rest) = n.z := by
  rw [shapeOf, zOf_write]
  exact valueOf_ofNumber h

theorem idOf_writeShape (n : Node) (rest : Rest) (sh : Json) :
    idOf (writeShape D n rest sh) = idOf sh := by
  have hset : ∀ {p : Prop} [Decidable p] {key : String} (v sh : Json), "id" ≠ key →
      idOf (if p then sh else sh.setKey key v) = idOf sh := by
    intro p _ key v sh hkey
    split
    · rfl
    · exact idOf_setKey hkey v sh
  rw [writeShape, idOf_write, hset _ _ (by decide), hset _ _ (by decide), hset _ _ (by decide)]

theorem isNumber_iff {q : ℚ} {v : Json} (h : isNumber D q v = true) : D.round (valueOf v) = q := by
  rw [isNumber.eq_def] at h
  split at h
  · exact of_decide_eq_true h
  · cases h

/-- A shape written has the node's number, or its own where it reads the same. -/
theorem zOf_writeShape (rest : Rest) (hobject : sh.isObject = true) (h : Half n.z) :
    zOf (writeShape D n rest sh) = n.z ∨
      zOf (writeShape D n rest sh) = zOf sh ∧ D.round (zOf sh) = n.z := by
  have hset : ∀ {p : Prop} [Decidable p] {key : String} (v sh : Json), "z" ≠ key →
      zOf (if p then sh else sh.setKey key v) = zOf sh := by
    intro p _ key v sh hkey
    split
    · rfl
    · exact zOf_setKey_ne hkey v sh
  have hkind : (if kindOf sh = some n.kind.label then sh
      else sh.setKey "kind" (.str n.kind.label)).isObject = true := by
    split
    · exact hobject
    · exact Json.isObject_setKey _ _ hobject
  have hz : (if kindOf sh = some n.kind.label then sh
      else sh.setKey "kind" (.str n.kind.label)).atKey "z" = sh.atKey "z" := by
    split
    · rfl
    · exact Json.atKey_setKey_ne (by decide) _ _
  rw [writeShape, zOf_write, hset _ _ (by decide)]
  generalize (if kindOf sh = some n.kind.label then sh
    else sh.setKey "kind" (.str n.kind.label)) = kinded at hkind hz ⊢
  split
  · next hnumber =>
    rw [hz] at hnumber
    refine .inr ⟨by rw [zOf, hz, zOf], isNumber_iff hnumber⟩
  · rw [zOf_setKey hkind]
    exact .inl (valueOf_ofNumber h)

theorem kindOf_writeShape (h : kindOf sh = some n.kind.label) :
    kindOf (writeShape D n rest sh) = kindOf sh := by
  have hset : ∀ {p : Prop} [Decidable p] {key : String} (v sh : Json), "kind" ≠ key →
      kindOf (if p then sh else sh.setKey key v) = kindOf sh := by
    intro p _ key v sh hkey
    split
    · rfl
    · rw [kindOf, Json.atKey_setKey_ne hkey, kindOf]
  rw [writeShape, kindOf, rest.atKey_write _ "kind" (by decide)]
  change kindOf _ = _
  rw [hset _ _ (by decide), hset _ _ (by decide), if_pos h]

theorem place_of_mem {id : String} (h : id ∈ Named.names idOf l) :
    ∃ i, Named.place idOf id l = some i :=
  Option.ne_none_iff_exists'.mp fun hnone => Named.place_eq_none.mp hnone h

theorem names_of_sameHalf {l' : List Json} (h : List.Forall₂ SameHalf l l') :
    Named.names idOf l' = Named.names idOf l :=
  names_of_forall₂ (h.imp fun _ _ hsame => hsame.id)

/-- Shapes written where they stand keep their ids, and their numbers stay halves. -/
theorem putAll_half (hset : ∀ w ∈ set, w.1.id ∈ Named.names idOf l ∧ Half w.1.z) :
    List.Forall₂ SameHalf l (set.foldl (putShape D) l) := by
  induction set generalizing l with
  | nil => exact List.forall₂_same.mpr fun sh _ => .refl sh
  | cons w set ih =>
    obtain ⟨hmem, hhalf⟩ := hset w List.mem_cons_self
    obtain ⟨i, hi⟩ := place_of_mem hmem
    obtain ⟨sh, hsh, hid⟩ := Named.place_eq_some hi
    have hfirst : List.Forall₂ SameHalf l (putShape D l w) := by
      rw [putShape, hi]
      refine forall₂_modify hsh ⟨idOf_writeShape _ _ _, fun hold => ?_⟩ fun _ b _ _ => .refl b
      obtain hnew | ⟨hkept, -⟩ := zOf_writeShape (D := D) w.2 (isObject_of_idOf hid) hhalf
      · rw [hnew]
        exact hhalf
      · rw [hkept]
        exact hold
    have hlater := ih (l := putShape D l w) fun w' hw' => by
      rw [names_of_sameHalf hfirst]
      exact hset w' (List.mem_cons_of_mem _ hw')
    have htrans : ∀ a b c, SameHalf a b → SameHalf b c → SameHalf a c := fun _ _ _ => SameHalf.trans
    exact forall₂_comp htrans hfirst hlater

/-- Shapes written with one number where they stand. -/
theorem putAll_sent {t : ℚ} (hdistinct : Named.Distinct idOf l)
    (hset : ∀ w ∈ set, w.1.z = t ∧ ∃ sh ∈ l, idOf sh = some w.1.id ∧
      kindOf sh = some w.1.kind.label)
    (ht : Half t) (hround : D.round t = t) (hexact : ∀ sh ∈ l, D.round (zOf sh) = zOf sh) :
    List.Forall₂ (Sent (set.map fun w => w.1.id) t) l (set.foldl (putShape D) l) := by
  induction set generalizing l with
  | nil => exact List.forall₂_same.mpr fun sh _ => .refl sh
  | cons w set ih =>
    obtain ⟨hz, sh, hsh, hid, hkind⟩ := hset w List.mem_cons_self
    obtain ⟨i, hi⟩ := place_of_mem (Named.mem_names.mpr ⟨sh, hsh, hid⟩)
    have hfirst : List.Forall₂ (Sent [w.1.id] t) l (putShape D l w) := by
      rw [putShape, hi]
      refine forall₂_sent_modify hdistinct hi fun found hfound => ?_
      obtain ⟨found', hfound', hid'⟩ := Named.place_eq_some hi
      rw [hfound, Option.some.injEq] at hfound'
      subst hfound'
      -- the shape of this id is the one the node was read from
      have hsame : found = sh := by
        obtain ⟨j, hj, rfl⟩ := List.mem_iff_getElem.mp hsh
        have hij := hdistinct.unique hfound hid' (List.getElem?_eq_getElem hj) hid
        subst hij
        rw [List.getElem?_eq_getElem hj, Option.some.injEq] at hfound
        exact hfound.symm
      subst hsame
      refine ⟨idOf_writeShape _ _ _, kindOf_writeShape hkind, ?_⟩
      obtain hnew | ⟨hkept, hread⟩ := zOf_writeShape (D := D) w.2
        (isObject_of_idOf hid') (hz.symm ▸ ht)
      · rw [hnew, hz]
      · rw [hkept, ← hexact found hsh, hread, hz]
    have hnames := names_of_forall₂ (hfirst.imp fun _ _ h => h.id)
    refine forall₂_comp (fun _ _ _ => Sent.comp) hfirst
      (ih ?_ (fun w' hw' => ?_) fun sh' hsh' => ?_)
    · rw [Named.Distinct, hnames]
      exact hdistinct
    · obtain ⟨hz', sh', hsh', hid', hkind'⟩ := hset w' (List.mem_cons_of_mem _ hw')
      obtain ⟨after, hafter, hsent⟩ := mem_of_forall₂ hfirst hsh'
      exact ⟨hz', after, hafter, hsent.id.trans hid', hsent.kind.trans hkind'⟩
    · obtain ⟨before, hbefore, hsent⟩ := mem_before hfirst hsh'
      by_cases hin : IsNamed [w.1.id] before
      · rw [hsent.named hin, hround]
      · rw [hsent.other hin, hexact before hbefore]

/-- New shapes are put at the end. -/
theorem putAll_new (hnodup : (set.map fun w => w.1.id).Nodup)
    (hnew : ∀ w ∈ set, w.1.id ∉ Named.names idOf l) :
    set.foldl (putShape D) l = l ++ set.map fun w => shapeOf w.1 w.2 := by
  induction set generalizing l with
  | nil => rw [List.foldl_nil, List.map_nil, List.append_nil]
  | cons w set ih =>
    rw [List.map_cons, List.nodup_cons] at hnodup
    have hput : putShape D l w = l ++ [shapeOf w.1 w.2] := by
      rw [putShape, Named.place_eq_none.mpr (hnew w List.mem_cons_self)]
    rw [List.foldl_cons, hput, ih hnodup.2, List.map_cons, List.append_assoc]
    · rfl
    · intro w' hw' hmem
      rw [Named.names_append, List.mem_append] at hmem
      obtain hmem | hmem := hmem
      · exact hnew w' (List.mem_cons_of_mem _ hw') hmem
      · have hone : Named.names idOf [shapeOf w.1 w.2] = [w.1.id] :=
          List.filterMap_cons_some (idOf_shapeOf w.1 w.2)
        rw [hone, List.mem_singleton] at hmem
        exact hnodup.1 (hmem ▸ List.mem_map_of_mem hw')

theorem removeById_sublist (l : List Json) (id : String) : (removeById l id).Sublist l := by
  rw [removeById]
  split
  · exact .refl l
  · exact List.eraseIdx_sublist l _

theorem removeAll_sublist (l : List Json) (ids : List String) :
    (ids.foldl removeById l).Sublist l := by
  induction ids generalizing l with
  | nil => exact .refl l
  | cons id ids ih => exact (ih _).trans (removeById_sublist l id)

/-- Frames written where they stand keep their ids. -/
theorem putFrames_names (set : List (Node × Rest)) (hset : ∀ w ∈ set, w.1.id ∈ Named.names idOf l) :
    Named.names idOf (set.foldl putFrame l) = Named.names idOf l ∧
      ((∀ fr ∈ l, (idOf fr).isSome = true) →
        ∀ fr ∈ set.foldl putFrame l, (idOf fr).isSome = true) := by
  induction set generalizing l with
  | nil => exact ⟨rfl, fun h => h⟩
  | cons w set ih =>
    obtain ⟨i, hi⟩ := place_of_mem (hset w List.mem_cons_self)
    have hput : putFrame l w = l.modify i w.2.write := by
      rw [putFrame, hi]
    have hnames : Named.names idOf (putFrame l w) = Named.names idOf l := by
      rw [hput]
      exact Named.names_modify fun fr => idOf_write w.2 fr
    obtain ⟨hlater, hsome⟩ := ih (l := putFrame l w) fun w' hw' => by
      rw [hnames]
      exact hset w' (List.mem_cons_of_mem _ hw')
    refine ⟨hlater.trans hnames, fun hl => hsome fun fr hfr => ?_⟩
    rw [hput] at hfr
    obtain ⟨j, hj, rfl⟩ := List.mem_iff_getElem.mp hfr
    rw [List.length_modify] at hj
    rw [List.getElem_modify]
    split
    · rw [idOf_write]
      exact hl _ (List.getElem_mem hj)
    · exact hl _ (List.getElem_mem hj)

end Putting

section Scenes

variable {D : Doubles} {stored : Json} {n : Node} {id : String} {op : EditorOp}

theorem mem_onBoard {l : List Node} : n ∈ onBoard l ↔ n ∈ l ∧ n.kind ≠ .frame := by
  rw [onBoard, List.mem_filter, decide_eq_true_iff]

theorem nodeAt_eq {scene : Scene} (h : nodeAt scene id = some n) : n ∈ scene ∧ n.id = id := by
  rw [nodeAt] at h
  have hid := List.find?_some h
  exact ⟨List.mem_of_find?_eq_some h, of_decide_eq_true hid⟩

/-- A node of a board's scene that is no frame was read from a shape of its id, kind and number. -/
theorem Ranked.read (h : Ranked stored) (hfits : Fits 2 (shapes stored))
    (hn : n ∈ sceneOf D stored) (hkind : n.kind ≠ .frame) :
    ∃ sh ∈ shapes stored, Drawn sh ∧ idOf sh = some n.id ∧ kindOf sh = some n.kind.label ∧
      n.locked = locked sh ∧ n.z = zOf sh := by
  obtain ⟨sh, hsh, hnode⟩ := (h.mem_scene hkind).mp hn
  obtain ⟨-, hz, hlocked, hlabel, -⟩ := nodeOf_eq hnode
  rw [hfits.exact (by norm_num) h.halves hsh] at hz
  exact ⟨sh, hsh, drawn_of_nodeOf hnode, h.idOf_node hsh hnode, hlabel, hlocked, hz⟩

/-- A drawn shape is read as a node. -/
theorem Ranked.node (h : Ranked stored) (hfits : Fits 2 (shapes stored)) {sh : Json}
    (hsh : sh ∈ shapes stored) (hdrawn : Drawn sh) :
    ∃ n ∈ sceneOf D stored, n.kind ≠ .frame ∧ idOf sh = some n.id ∧ n.z = zOf sh := by
  obtain ⟨n, hn⟩ := nodeOf_of_drawn (D := D) hdrawn
  obtain ⟨-, hz, -, -, hkind⟩ := nodeOf_eq hn
  rw [hfits.exact (by norm_num) h.halves hsh] at hz
  exact ⟨n, (h.mem_scene hkind).mpr ⟨sh, hsh, hn⟩, hkind, h.idOf_node hsh hn, hz⟩

theorem Ranked.frame_mem (h : Ranked stored) (hn : n ∈ sceneOf D stored) (hkind : n.kind = .frame) :
    n.id ∈ Named.names idOf (frames stored) := by
  rw [h.scene, fromDoc, List.mem_append, List.mem_filterMap] at hn
  obtain hn | ⟨sh, -, hnode⟩ := hn
  · obtain ⟨fr, hfr, rfl⟩ := List.mem_map.mp hn
    obtain ⟨id, hid⟩ := Option.isSome_iff_exists.mp
      (h.identified fr (List.mem_append_right _ hfr))
    refine Named.mem_names.mpr ⟨fr, hfr, ?_⟩
    rw [frameNode, hid]
    rfl
  · exact absurd hkind (nodeOf_eq hnode).2.2.2.2

theorem Ranked.z_spec (h : Ranked stored) (hfits : Fits 2 (shapes stored))
    (hn : n ∈ sceneOf D stored) (hkind : n.kind ≠ .frame) : Half n.z ∧ |n.z| + 2 ≤ 2 ^ 52 := by
  obtain ⟨sh, hsh, -, -, -, -, hz⟩ := h.read hfits hn hkind
  rw [hz]
  exact ⟨h.halves sh hsh, hfits sh hsh⟩

/-- The number the editor gives a new shape is a half, fits, and is above every other's. -/
theorem Ranked.newZ (h : Ranked stored) (hfits : Fits 2 (shapes stored)) {kind : Kind}
    (hkind : kind ≠ .frame) :
    Half (editorNextZ D (sceneOf D stored) kind) ∧
      |editorNextZ D (sceneOf D stored) kind| ≤ 2 ^ 52 ∧
      ∀ sh ∈ shapes stored, Drawn sh → zOf sh < editorNextZ D (sceneOf D stored) kind := by
  have hfold : ∀ (l : List Node) (top : ℚ), (∀ n ∈ l, Half n.z ∧ |n.z| + 2 ≤ 2 ^ 52) →
      Half top → |top| + 2 ≤ 2 ^ 52 →
      let after := l.foldl (fun top n => if top < n.z then n.z else top) top
      Half after ∧ |after| + 2 ≤ 2 ^ 52 ∧ top ≤ after ∧ ∀ n ∈ l, n.z ≤ after := by
    intro l
    induction l with
    | nil => exact fun top _ hhalf hfit => ⟨hhalf, hfit, le_rfl, nofun⟩
    | cons n l ih =>
      intro top hl hhalf hfit
      obtain ⟨hn, hfitn⟩ := hl n List.mem_cons_self
      have hmax : (if top < n.z then n.z else top) = max top n.z := by
        split
        · next hlt => exact (max_eq_right hlt.le).symm
        · next hle => exact (max_eq_left (not_lt.mp hle)).symm
      have hcase := max_choice top n.z
      obtain ⟨h₁, h₂, h₃, h₄⟩ := ih (max top n.z) (fun n hn => hl n (List.mem_cons_of_mem _ hn))
        (by obtain hc | hc := hcase <;> rw [hc] <;> assumption)
        (by obtain hc | hc := hcase <;> rw [hc] <;> assumption)
      dsimp only
      rw [List.foldl_cons, hmax]
      refine ⟨h₁, h₂, (le_max_left _ _).trans h₃, fun n' hn' => ?_⟩
      obtain rfl | hn' := List.mem_cons.mp hn'
      · exact (le_max_right _ _).trans h₃
      · exact h₄ n' hn'
  obtain ⟨hhalf, hfit, -, hall⟩ := hfold (onBoard (sceneOf D stored).all) 0
    (fun n hn => by
      obtain ⟨hn, hnk⟩ := mem_onBoard.mp hn
      exact h.z_spec hfits (mem_all.mp hn) hnk) (by simpa using half_int 0) (by norm_num)
  have hhalf' := hhalf.add half_one
  have hbound := abs_add_le ((onBoard (sceneOf D stored).all).foldl
    (fun top n => if top < n.z then n.z else top) 0) 1
  rw [abs_one] at hbound
  rw [editorNextZ, if_neg hkind, D.exact _ hhalf' (by linarith)]
  refine ⟨hhalf', by linarith, fun sh hsh hdrawn => ?_⟩
  obtain ⟨n, hn, hnk, -, hz⟩ := h.node (D := D) hfits hsh hdrawn
  rw [← hz]
  linarith [hall n (mem_onBoard.mpr ⟨mem_all.mpr hn, hnk⟩)]

/-- The editor's number in front: a half, it fits, and it is above every other's. -/
theorem Ranked.orderTop (h : Ranked stored) (hfits : Fits 2 (shapes stored)) :
    let top := ((onBoard (sceneOf D stored).all).getLast?.map Node.z).getD 0 + 1
    Half top ∧ |top| ≤ 2 ^ 52 ∧ ∀ n ∈ sceneOf D stored, n.kind ≠ .frame → n.z < top := by
  have hsorted := (pairwise_all (sceneOf D stored)).sublist (List.filter_sublist (p := fun n =>
    n.kind ≠ .frame))
  change (onBoard (sceneOf D stored).all).Pairwise _ at hsorted
  have hmem : ∀ n ∈ sceneOf D stored, n.kind ≠ .frame → n ∈ onBoard (sceneOf D stored).all :=
    fun n hn hk => mem_onBoard.mpr ⟨mem_all.mpr hn, hk⟩
  have hspec : ∀ n ∈ onBoard (sceneOf D stored).all, Half n.z ∧ |n.z| + 2 ≤ 2 ^ 52 := by
    intro n hn
    obtain ⟨hn, hk⟩ := mem_onBoard.mp hn
    exact h.z_spec hfits (mem_all.mp hn) hk
  generalize onBoard (sceneOf D stored).all = nodes at hsorted hmem hspec ⊢
  obtain rfl | ⟨init, last, rfl⟩ := List.eq_nil_or_concat nodes
  · refine ⟨by simpa using half_one, by norm_num, fun n hn hk => ?_⟩
    exact absurd (hmem n hn hk) List.not_mem_nil
  · obtain ⟨hhalf, hfit⟩ := hspec last (by simp)
    have hbound := abs_add_le last.z 1
    rw [abs_one] at hbound
    rw [List.concat_eq_append] at hsorted hmem ⊢
    rw [List.getLast?_concat, Option.map_some, Option.getD_some]
    refine ⟨hhalf.add half_one, by linarith, fun n hn hk => ?_⟩
    obtain hin | hin := List.mem_append.mp (hmem n hn hk)
    · have hle := (List.pairwise_append.mp hsorted).2.2 n hin last (List.mem_singleton_self _)
      linarith
    · rw [List.mem_singleton.mp hin]
      linarith

/-- The editor's number at the back: a half, it fits, and it is below every other's. -/
theorem Ranked.orderBottom (h : Ranked stored) (hfits : Fits 2 (shapes stored)) :
    let bottom := ((onBoard (sceneOf D stored).all).head?.map Node.z).getD 0 - 1
    Half bottom ∧ |bottom| ≤ 2 ^ 52 ∧ ∀ n ∈ sceneOf D stored, n.kind ≠ .frame → bottom < n.z := by
  have hsorted := (pairwise_all (sceneOf D stored)).sublist (List.filter_sublist (p := fun n =>
    n.kind ≠ .frame))
  change (onBoard (sceneOf D stored).all).Pairwise _ at hsorted
  have hmem : ∀ n ∈ sceneOf D stored, n.kind ≠ .frame → n ∈ onBoard (sceneOf D stored).all :=
    fun n hn hk => mem_onBoard.mpr ⟨mem_all.mpr hn, hk⟩
  have hspec : ∀ n ∈ onBoard (sceneOf D stored).all, Half n.z ∧ |n.z| + 2 ≤ 2 ^ 52 := by
    intro n hn
    obtain ⟨hn, hk⟩ := mem_onBoard.mp hn
    exact h.z_spec hfits (mem_all.mp hn) hk
  generalize onBoard (sceneOf D stored).all = nodes at hsorted hmem hspec ⊢
  cases nodes with
  | nil =>
    refine ⟨by simpa using half_int (-1), by norm_num, fun n hn hk => ?_⟩
    exact absurd (hmem n hn hk) List.not_mem_nil
  | cons first rest =>
    obtain ⟨hhalf, hfit⟩ := hspec first List.mem_cons_self
    have hbound := abs_sub first.z 1
    rw [abs_one] at hbound
    rw [List.head?_cons, Option.map_some, Option.getD_some]
    refine ⟨hhalf.sub half_one, by linarith, fun n hn hk => ?_⟩
    obtain rfl | hin := List.mem_cons.mp (hmem n hn hk)
    · linarith
    · have hle := (List.pairwise_cons.mp hsorted).1 n hin
      linarith

/-- The ids an operation makes. -/
def EditorOp.newIds : EditorOp → List String
  | create _ id _ => [id]
  | duplicate copies => copies.map fun e => e.2.1
  | _ => []

/-- What an operation of the editor does to the shapes and the frames. -/
inductive EditorStacks (op : EditorOp) (stored doc' : Json) : Prop
  | moved (moved : List.Forall₂ SameHalf (shapes stored) (shapes doc'))
      (frames : Named.names idOf (frames doc') = Named.names idOf (frames stored))
      (identified : ∀ fr ∈ Whiteboard.frames doc', (idOf fr).isSome = true)
  | fewer (shapes : (shapes doc').Sublist (shapes stored))
      (frames : (frames doc').Sublist (frames stored))
  | more (new newFrames : List Json) (shapes : shapes doc' = Whiteboard.shapes stored ++ new)
      (frames : frames doc' = Whiteboard.frames stored ++ newFrames)
      (identified : ∀ sh ∈ new ++ newFrames, (idOf sh).isSome = true)
      (distinct : (Named.names idOf (new ++ newFrames)).Nodup)
      (fresh : ∀ id ∈ Named.names idOf (new ++ newFrames), id ∈ op.newIds)
      (above : ∀ sh ∈ new, Half (zOf sh) ∧ |zOf sh| ≤ 2 ^ 52 ∧
        ∀ sh' ∈ Whiteboard.shapes stored, Drawn sh' → zOf sh' < zOf sh)

theorem EditorStacks.refl (h : Ranked stored) : EditorStacks op stored stored :=
  .moved (List.forall₂_same.mpr fun sh _ => .refl sh) rfl fun fr hfr =>
    h.identified fr (List.mem_append_right _ hfr)

/-- A change that sets nodes where they stand. -/
theorem Ranked.set_in_place (h : Ranked stored) {set : List (Node × Rest)}
    (hset : ∀ w ∈ set, (w.1.kind ≠ .frame → w.1.id ∈ Named.names idOf (shapes stored) ∧
      Half w.1.z) ∧ (w.1.kind = .frame → w.1.id ∈ Named.names idOf (frames stored))) :
    EditorStacks op stored (localChange D ⟨set, []⟩ stored) := by
  cases hempty : (set.isEmpty && ([] : List String).isEmpty) with
  | true =>
    rw [localChange, if_pos hempty]
    exact .refl h
  | false =>
    obtain ⟨hshapes, hframes⟩ := localChange_lists D ⟨set, []⟩ stored hempty
    have hidentified : ∀ fr ∈ frames stored, (idOf fr).isSome = true := fun fr hfr =>
      h.identified fr (List.mem_append_right _ hfr)
    obtain ⟨hnames, hsome⟩ := putFrames_names (l := frames stored)
      (set.filter fun w => w.1.kind = .frame) fun w hw => by
        obtain ⟨hw, hk⟩ := List.mem_filter.mp hw
        exact (hset w hw).2 (of_decide_eq_true hk)
    refine .moved ?_ ?_ ?_
    · rw [hshapes, shapesAfter, List.foldl_nil]
      refine putAll_half fun w hw => ?_
      obtain ⟨hw, hk⟩ := List.mem_filter.mp hw
      exact (hset w hw).1 (of_decide_eq_true hk)
    · rw [hframes, framesAfter, List.foldl_nil]
      exact hnames
    · rw [hframes, framesAfter, List.foldl_nil]
      exact hsome hidentified

theorem putFrames_new {l : List Json} {set : List (Node × Rest)}
    (hnodup : (set.map fun w => w.1.id).Nodup)
    (hnew : ∀ w ∈ set, w.1.id ∉ Named.names idOf l) :
    set.foldl putFrame l = l ++ set.map fun w => w.2.write (.obj [("id", .str w.1.id)]) := by
  induction set generalizing l with
  | nil => rw [List.foldl_nil, List.map_nil, List.append_nil]
  | cons w set ih =>
    rw [List.map_cons, List.nodup_cons] at hnodup
    have hput : putFrame l w = l ++ [w.2.write (.obj [("id", .str w.1.id)])] := by
      rw [putFrame, Named.place_eq_none.mpr (hnew w List.mem_cons_self)]
    rw [List.foldl_cons, hput, ih hnodup.2, List.map_cons, List.append_assoc]
    · rfl
    · intro w' hw' hmem
      rw [Named.names_append, List.mem_append] at hmem
      obtain hmem | hmem := hmem
      · exact hnew w' (List.mem_cons_of_mem _ hw') hmem
      · have hone : Named.names idOf [w.2.write (.obj [("id", .str w.1.id)])] = [w.1.id] :=
          List.filterMap_cons_some (by rw [idOf_write]; rfl)
        rw [hone, List.mem_singleton] at hmem
        exact hnodup.1 (hmem ▸ List.mem_map_of_mem hw')

theorem names_map {α : Type} (f : α → Json) (id : α → String) (l : List α)
    (h : ∀ a, idOf (f a) = some (id a)) : Named.names idOf (l.map f) = l.map id := by
  induction l with
  | nil => rfl
  | cons a l ih => exact (List.filterMap_cons_some (h a)).trans (congrArg (id a :: ·) ih)

/-- A change that sets new nodes, each above every shape that is drawn. -/
theorem Ranked.set_new (h : Ranked stored) {set : List (Node × Rest)}
    (hids : (set.map fun w => w.1.id).Sublist op.newIds) (hnodup : op.newIds.Nodup)
    (hnew : ∀ id ∈ op.newIds, id ∉ ids stored)
    (habove : ∀ w ∈ set, w.1.kind ≠ .frame → Half w.1.z ∧ |w.1.z| ≤ 2 ^ 52 ∧
      ∀ sh ∈ shapes stored, Drawn sh → zOf sh < w.1.z) :
    EditorStacks op stored (localChange D ⟨set, []⟩ stored) := by
  cases hempty : (set.isEmpty && ([] : List String).isEmpty) with
  | true =>
    rw [localChange, if_pos hempty]
    exact .refl h
  | false =>
    obtain ⟨hshapes, hframes⟩ := localChange_lists D ⟨set, []⟩ stored hempty
    have hmem : ∀ w ∈ set, w.1.id ∈ op.newIds := fun w hw =>
      hids.subset (List.mem_map_of_mem hw)
    have hids' : ids stored =
        Named.names idOf (shapes stored) ++ Named.names idOf (frames stored) :=
      Named.names_append
    have hsub : ∀ p : Node × Rest → Bool, ((set.filter p).map fun w => w.1.id).Nodup := fun p =>
      ((List.filter_sublist.map _).trans hids).nodup hnodup
    have hfresh : ∀ w ∈ set, w.1.id ∉ Named.names idOf (shapes stored) ∧
        w.1.id ∉ Named.names idOf (frames stored) := by
      intro w hw
      have hout := hnew w.1.id (hmem w hw)
      rw [hids', List.mem_append, not_or] at hout
      exact hout
    rw [shapesAfter, List.foldl_nil, putAll_new (hsub _) fun w hw =>
      (hfresh w (List.mem_filter.mp hw).1).1] at hshapes
    rw [framesAfter, List.foldl_nil, putFrames_new (hsub _) fun w hw =>
      (hfresh w (List.mem_filter.mp hw).1).2] at hframes
    have hnames : Named.names idOf
        (((set.filter fun w => w.1.kind ≠ .frame).map fun w => shapeOf w.1 w.2) ++
          (set.filter fun w => w.1.kind = .frame).map fun w =>
            w.2.write (.obj [("id", .str w.1.id)])) =
        ((set.filter fun w => w.1.kind ≠ .frame) ++
          set.filter fun w => w.1.kind = .frame).map fun w => w.1.id := by
      rw [Named.names_append, List.map_append]
      refine congrArg₂ (· ++ ·) ?_ ?_
      · exact names_map _ (fun w : Node × Rest => w.1.id) _ fun w => idOf_shapeOf w.1 w.2
      · exact names_map _ (fun w : Node × Rest => w.1.id) _ fun w => by rw [idOf_write]; rfl
    have hperm : ((set.filter fun w => w.1.kind ≠ .frame) ++
        set.filter fun w => w.1.kind = .frame).Perm set := by
      have hsplit := List.filter_append_perm (fun w : Node × Rest => w.1.kind ≠ .frame) set
      refine .trans (.append_left _ (List.Perm.of_eq ?_)) hsplit
      exact List.filter_congr fun w _ => by simp
    refine .more _ _ hshapes hframes ?_ ?_ ?_ ?_
    · intro sh hsh
      obtain hsh | hsh := List.mem_append.mp hsh
      · obtain ⟨w, -, rfl⟩ := List.mem_map.mp hsh
        rw [idOf_shapeOf]
        rfl
      · obtain ⟨w, -, rfl⟩ := List.mem_map.mp hsh
        rw [idOf_write]
        rfl
    · rw [hnames]
      exact (hperm.map _).nodup_iff.mpr (hids.nodup hnodup)
    · rw [hnames]
      intro id hid
      obtain ⟨w, hw, rfl⟩ := List.mem_map.mp hid
      exact hmem w (hperm.mem_iff.mp hw)
    · intro sh hsh
      obtain ⟨w, hw, rfl⟩ := List.mem_map.mp hsh
      obtain ⟨hw, hk⟩ := List.mem_filter.mp hw
      obtain ⟨hhalf, hfit, hlt⟩ := habove w hw (of_decide_eq_true hk)
      rw [zOf_shapeOf hhalf]
      exact ⟨hhalf, hfit, hlt⟩

/-- **What an operation of the editor does** to a board whose numbers fit. -/
theorem Ranked.editor (h : Ranked stored) (hfits : Fits 2 (shapes stored))
    (hnodup : op.newIds.Nodup) (hnew : ∀ id ∈ op.newIds, id ∉ ids stored) :
    EditorStacks op stored (localChange D (op.change D (sceneOf D stored)) stored) := by
  cases op with
  | create kind id rest =>
    refine h.set_new (.refl _) hnodup hnew fun w hw hk => ?_
    rw [List.mem_singleton.mp hw] at hk ⊢
    exact h.newZ hfits hk
  | edit edits =>
    refine h.set_in_place fun w hw => ?_
    obtain ⟨e, -, he⟩ := List.mem_filterMap.mp hw
    obtain ⟨n, hn, rfl⟩ := Option.map_eq_some_iff.mp he
    obtain ⟨hmem, -⟩ := nodeAt_eq hn
    refine ⟨fun hk => ?_, fun hk => h.frame_mem (D := D) (n := n) hmem hk⟩
    obtain ⟨sh, hsh, -, hid, -⟩ := h.read hfits hmem hk
    exact ⟨Named.mem_names.mpr ⟨sh, hsh, hid⟩, (h.z_spec hfits hmem hk).1⟩
  | delete ids =>
    cases hempty : (([] : List (Node × Rest)).isEmpty && ids.isEmpty) with
    | true =>
      rw [EditorOp.change, localChange, if_pos hempty]
      exact .refl h
    | false =>
      obtain ⟨hshapes, hframes⟩ := localChange_lists D ⟨[], ids⟩ stored hempty
      refine .fewer ?_ ?_
      · rw [EditorOp.change, hshapes]
        exact removeAll_sublist _ _
      · rw [EditorOp.change, hframes]
        exact removeAll_sublist _ _
  | order selection toward =>
    refine h.set_in_place fun w hw => ?_
    obtain ⟨n', hn', rfl⟩ := List.mem_map.mp hw
    obtain ⟨n, hn, heq⟩ := List.mem_filterMap.mp hn'
    obtain ⟨hin, hk⟩ := mem_onBoard.mp hn
    have hmem := mem_all.mp hin
    obtain ⟨sh, hsh, -, hid, -⟩ := h.read hfits hmem hk
    obtain ⟨hhalf, hfit⟩ := h.z_spec hfits hmem hk
    obtain ⟨htop, htopFit, -⟩ := h.orderTop (D := D) hfits
    obtain ⟨hbottom, hbottomFit, -⟩ := h.orderBottom (D := D) hfits
    split at heq
    · cases heq
    · cases heq
      refine ⟨fun _ => ⟨Named.mem_names.mpr ⟨sh, hsh, hid⟩, ?_⟩, fun hframe => absurd hframe hk⟩
      obtain ⟨hlow, hhigh⟩ := abs_le.mp (le_sub_iff_add_le.mpr hfit)
      cases toward with
      | front =>
        dsimp only
        rw [D.exact _ htop htopFit]
        exact htop
      | back =>
        dsimp only
        rw [D.exact _ hbottom hbottomFit]
        exact hbottom
      | forward =>
        dsimp only
        rw [D.exact _ (hhalf.add half_three_halves)
          (abs_le.mpr ⟨by linarith, by linarith⟩)]
        exact hhalf.add half_three_halves
      | backward =>
        dsimp only
        rw [D.exact _ (hhalf.sub half_three_halves)
          (abs_le.mpr ⟨by linarith, by linarith⟩)]
        exact hhalf.sub half_three_halves
  | duplicate copies =>
    refine h.set_new ?_ hnodup hnew fun w hw hk => ?_
    · have hsub : ∀ l : List (String × String × Rest),
          ((l.filterMap fun e => (nodeAt (sceneOf D stored) e.1).bind fun n =>
            if n.kind = .arrow then none
            else some ({ n with id := e.2.1, z := editorNextZ D (sceneOf D stored) n.kind },
              e.2.2)).map fun w => w.1.id).Sublist (l.map fun e => e.2.1) := by
        intro l
        induction l with
        | nil => exact .slnil
        | cons e l ih =>
          rw [List.filterMap_cons, List.map_cons]
          split
          · exact ih.cons _
          · next w hw =>
            obtain ⟨n, -, hw⟩ := Option.bind_eq_some_iff.mp hw
            split at hw
            · cases hw
            · cases hw
              exact ih.cons_cons _
      exact hsub copies
    · obtain ⟨e, -, he⟩ := List.mem_filterMap.mp hw
      obtain ⟨n, -, he⟩ := Option.bind_eq_some_iff.mp he
      split at he
      · cases he
      · cases he
        exact h.newZ hfits hk

end Scenes

/-! ### Runs -/

/-- What a step must meet: the ids it makes are no shape's and no frame's; where it is a tool's and
puts shapes above or below what is drawn, no number there that is not whole is one or more beyond
those that are; and the numbers leave room within those that doubles hold exactly. -/
structure Step.Meets (stored : Json) (s : Step) : Prop where
  made : ∀ c, s = .tool c → c.host.docPut 0 = .ok () →
    (∀ lead, Adds c stored lead → nextId (load stored) lead c.host.nowMs ∉ ids stored) ∧
    (c.name = "canvas.add_frame" → nextId (load stored) "f" c.host.nowMs ∉ ids stored) ∧
    (c.name = "canvas.duplicate" → Copyable (load stored) (idsOf c.params) →
      ∀ id ∈ copyIds (load stored) (idsOf c.params), id ∉ ids stored)
  drawn : ∀ op, s = .edit op → op.newIds.Nodup ∧ ∀ id ∈ op.newIds, id ∉ ids stored
  added : ∀ c, s = .tool c → c.host.docPut 0 = .ok () → AddsSome c stored →
    TopWhole [] (load stored)
  top : ∀ c, s = .tool c → c.host.docPut 0 = .ok () → Orders c stored .front →
    TopWhole (idsOf c.params) (load stored)
  bottom : ∀ c, s = .tool c → c.host.docPut 0 = .ok () → Orders c stored .back →
    BottomWhole (idsOf c.params) (load stored)
  fits : ∀ c, s = .tool c → margin c ≤ 2 ^ 52 ∧ Fits (margin c) (shapes stored)
  fitsEditor : ∀ op, s = .edit op → Fits 2 (shapes stored)

section Runs

variable {N : Floats} {D : Doubles} {stored : Json} {s : Step} {c : ToolCall} {op : EditorOp}

theorem Ranked.distinctShapes (h : Ranked stored) : Named.Distinct idOf (shapes stored) := by
  have hids : ids stored = Named.names idOf (shapes stored) ++ Named.names idOf (frames stored) :=
    Named.names_append
  exact (List.nodup_append.mp (hids ▸ h.distinct)).1

/-- A board after lists that keep the ids. -/
theorem Ranked.of_names {doc' : Json} (h : Ranked stored)
    (hshapes : Named.names idOf (shapes doc') = Named.names idOf (shapes stored))
    (hframes : Named.names idOf (frames doc') = Named.names idOf (frames stored))
    (hidentified : ∀ sh ∈ shapes doc' ++ frames doc', (idOf sh).isSome = true)
    (halves : ∀ sh ∈ shapes doc', Half (zOf sh)) : Ranked doc' := by
  refine ⟨hidentified, ?_, halves⟩
  rw [ids, Named.names_append, hshapes, hframes, ← Named.names_append]
  exact h.distinct

/-- A board with more shapes and frames of new ids. -/
theorem Ranked.more {doc' : Json} (h : Ranked stored) {new newFrames : List Json}
    (hshapes : shapes doc' = shapes stored ++ new)
    (hframes : frames doc' = frames stored ++ newFrames)
    (hidentified : ∀ sh ∈ new ++ newFrames, (idOf sh).isSome = true)
    (hdistinct : (Named.names idOf (new ++ newFrames)).Nodup)
    (hfresh : ∀ id ∈ Named.names idOf (new ++ newFrames), id ∉ ids stored)
    (halves : ∀ sh ∈ new, Half (zOf sh)) : Ranked doc' := by
  have hperm : (shapes doc' ++ frames doc').Perm
      ((shapes stored ++ frames stored) ++ (new ++ newFrames)) := by
    rw [hshapes, hframes, List.append_assoc, List.append_assoc]
    refine .append_left _ ?_
    rw [← List.append_assoc, ← List.append_assoc]
    exact .append_right _ List.perm_append_comm
  refine ⟨fun sh hsh => ?_, ?_, fun sh hsh => ?_⟩
  · obtain hsh | hsh := List.mem_append.mp (hperm.mem_iff.mp hsh)
    · exact h.identified sh hsh
    · exact hidentified sh hsh
  · refine (hperm.filterMap idOf).nodup_iff.mpr ?_
    change (Named.names idOf (_ ++ _)).Nodup
    rw [Named.names_append]
    refine List.nodup_append.mpr ⟨h.distinct, hdistinct, ?_⟩
    rintro a ha b hb rfl
    exact hfresh a hb ha
  · rw [hshapes] at hsh
    obtain hsh | hsh := List.mem_append.mp hsh
    · exact h.halves sh hsh
    · exact halves sh hsh

theorem Ranked.fewer {doc' : Json} (h : Ranked stored)
    (hshapes : (shapes doc').Sublist (shapes stored))
    (hframes : (frames doc').Sublist (frames stored)) : Ranked doc' := by
  refine ⟨fun sh hsh => ?_, ?_, fun sh hsh => h.halves sh (hshapes.subset hsh)⟩
  · exact h.identified sh ((hshapes.append hframes).subset hsh)
  · exact ((hshapes.append hframes).filterMap idOf).nodup h.distinct

/-- A tool keeps the ids, and with them the board. -/
theorem Ranked.tool (h : Ranked stored) (hmeets : (Step.tool c).Meets stored) :
    Ranked (call N c stored).2 := by
  obtain ⟨hm, hfits⟩ := hmeets.fits c rfl
  have hstacks := stacks_of (N := N) h.distinctShapes hm hfits
  have halves : ∀ sh ∈ shapes (call N c stored).2, Half (zOf sh) := by
    have hmoved : List.Forall₂ SameHalf (shapes stored) (shapes (call N c stored).2) →
        ∀ sh ∈ shapes (call N c stored).2, Half (zOf sh) := by
      intro hforall sh hsh
      obtain ⟨before, hbefore, hsame⟩ := mem_before hforall hsh
      exact hsame.half (h.halves before hbefore)
    cases hstacks with
    | kept kept name => exact hmoved (kept.imp fun _ _ hz => hz.half)
    | refused kept refused =>
      rw [kept]
      exact h.halves
    | fewer name after =>
      obtain ⟨i, hi⟩ := after
      rw [hi]
      exact fun sh hsh => h.halves sh ((List.eraseIdx_sublist _ i).subset hsh)
    | more new name after above =>
      rw [after]
      intro sh hsh
      obtain hsh | hsh := List.mem_append.mp hsh
      · exact h.halves sh hsh
      · obtain ⟨i, hi, -⟩ := above sh hsh
        rw [zOf_num hi]
        exact half_int i
    | moved moved front back => exact hmoved moved
    | front toward sent => exact hmoved (sent.imp fun _ _ hs => hs.half (half_int _))
    | back toward sent => exact hmoved (sent.imp fun _ _ hs => hs.half (half_int _))
  cases effect_of (N := N) c stored with
  | wrote writes kept selected =>
    obtain ⟨hnames, hsame⟩ := writes.same
    refine h.of_names hnames (by rw [kept]) (fun sh hsh => ?_) halves
    obtain hsh | hsh := List.mem_append.mp hsh
    · obtain ⟨before, hbefore, hends⟩ := hsame sh hsh
      rw [hends.id]
      exact h.identified before (List.mem_append_left _ hbefore)
    · rw [kept] at hsh
      exact h.identified sh (List.mem_append_right _ hsh)
  | framed frame name put id kept added selected =>
    have hnames : Named.names idOf ([] ++ [frame]) = [nextId (load stored) "f" c.host.nowMs] :=
      List.filterMap_cons_some id
    refine h.more (kept.trans (List.append_nil _).symm) added ?_ ?_ ?_ nofun
    · intro sh hsh
      rw [List.nil_append, List.mem_singleton] at hsh
      rw [hsh, id]
      rfl
    · rw [hnames]
      exact List.nodup_singleton _
    · rw [hnames]
      intro id' hid'
      rw [List.mem_singleton.mp hid']
      exact (hmeets.made c rfl put).2.1 name
  | added sh lead adds id ends put after kept selected =>
    have hnames : Named.names idOf ([sh] ++ []) = [nextId (load stored) lead c.host.nowMs] :=
      List.filterMap_cons_some id
    refine h.more after (kept.trans (List.append_nil _).symm) ?_ ?_ ?_ fun sh' hsh' => ?_
    · intro sh' hsh'
      rw [List.append_nil, List.mem_singleton] at hsh'
      rw [hsh', id]
      rfl
    · rw [hnames]
      exact List.nodup_singleton _
    · rw [hnames]
      intro id' hid'
      rw [List.mem_singleton.mp hid']
      exact (hmeets.made c rfl put).1 lead adds
    · exact halves sh' (by rw [after]; exact List.mem_append_right _ hsh')
  | removed i name put found unlocked after kept selected =>
    refine h.fewer ?_ (kept ▸ .refl _)
    rw [after]
    exact List.eraseIdx_sublist _ i
  | copied new name put copyable hids copies after kept selected =>
    have hnames : Named.names idOf (new ++ []) = copyIds (load stored) (idsOf c.params) := by
      rw [List.append_nil, hids]
    refine h.more after (kept.trans (List.append_nil _).symm) ?_ ?_ ?_ fun sh' hsh' => ?_
    · rw [List.append_nil]
      exact fun sh hsh => (copies sh hsh).1
    · rw [hnames]
      exact copyIds_nodup _ _
    · rw [hnames]
      exact (hmeets.made c rfl put).2.2 name copyable
    · exact halves sh' (by rw [after]; exact List.mem_append_right _ hsh')

/-- An operation of the editor keeps the board. -/
theorem Ranked.edited (h : Ranked stored) (hmeets : (Step.edit op).Meets stored) :
    Ranked (localChange D (op.change D (sceneOf D stored)) stored) := by
  obtain ⟨hnodup, hnew⟩ := hmeets.drawn op rfl
  cases h.editor (D := D) (hmeets.fitsEditor op rfl) hnodup hnew with
  | moved moved frames identified =>
    refine h.of_names (names_of_sameHalf moved) frames (fun sh hsh => ?_) fun sh hsh => ?_
    · obtain hsh | hsh := List.mem_append.mp hsh
      · obtain ⟨before, hbefore, hsame⟩ := mem_before moved hsh
        rw [hsame.id]
        exact h.identified before (List.mem_append_left _ hbefore)
      · exact identified sh hsh
    · obtain ⟨before, hbefore, hsame⟩ := mem_before moved hsh
      exact hsame.half (h.halves before hbefore)
  | fewer shapes frames => exact h.fewer shapes frames
  | more new newFrames shapes frames identified distinct fresh above =>
    exact h.more shapes frames identified distinct (fun id hid => hnew id (fresh id hid))
      fun sh hsh => (above sh hsh).1

/-- **One step** keeps a board's ids apart and its numbers halves. -/
theorem Ranked.step (h : Ranked stored) (hmeets : s.Meets stored) :
    Ranked (s.apply N D stored) := by
  cases s with
  | tool c => exact h.tool hmeets
  | edit op => exact h.edited hmeets

/-- Where a step makes no ids, nothing is new. -/
theorem Ranked.lifted_none {doc' : Json} (h : Ranked doc')
    (hnames : ∀ id ∈ Named.names idOf (shapes doc'), id ∈ Named.names idOf (shapes stored)) :
    Lifted (shown D doc') (· ∉ Named.names idOf (shapes stored)) := by
  intro a ha b _ hka _ hout _
  obtain ⟨sh, hsh, hnode⟩ := (h.mem_scene hka).mp (mem_all.mp ha)
  exact absurd (hnames a.id (Named.mem_names.mpr ⟨sh, hsh, h.idOf_node hsh hnode⟩)) hout

/-- New shapes above every shape drawn before are over them. -/
theorem over_new {new : List Json} (h : Named.Distinct idOf (shapes stored ++ new))
    (habove : ∀ sh ∈ new, ∀ sh' ∈ shapes stored, Drawn sh' → zOf sh' < zOf sh) :
    Over (· ∉ Named.names idOf (shapes stored)) (shapes stored ++ new) := by
  intro a ha b hb _ hdb id id' hid hid' hout hin
  have hnew : a ∈ new := by
    obtain ha | ha := List.mem_append.mp ha
    · exact absurd (Named.mem_names.mpr ⟨a, ha, hid⟩) hout
    · exact ha
  have hold : b ∈ shapes stored := by
    obtain hb | hb := List.mem_append.mp hb
    · exact hb
    · rw [Named.Distinct, Named.names_append, List.nodup_append] at h
      exact absurd rfl (h.2.2 id' (not_not.mp hin) id' (Named.mem_names.mpr ⟨b, hb, hid'⟩))
  exact habove a hnew b hold hdb

theorem fits_of_sent {ids : List String} {t m : ℚ} {l l' : List Json} (hm : 0 ≤ m)
    (h : List.Forall₂ (Sent ids t) l l') (hfits : Fits m l) (ht : |t| ≤ 2 ^ 52) : Fits 0 l' := by
  intro sh' hsh'
  obtain ⟨sh, hsh, hsent⟩ := mem_before h hsh'
  rw [add_zero]
  by_cases hin : IsNamed ids sh
  · rw [hsent.named hin]
    exact ht
  · rw [hsent.other hin]
    linarith [hfits sh hsh]

/-- What the editor sends is given one number. -/
theorem Ranked.order_sent (h : Ranked stored) (hfits : Fits 2 (shapes stored))
    {selection : List String} {toward : Where} {t : ℚ} (ht : Half t) (hfit : |t| ≤ 2 ^ 52)
    (hz : ∀ n ∈ orderNodes D (sceneOf D stored) selection toward, n.z = t) :
    List.Forall₂ (Sent ((orderNodes D (sceneOf D stored) selection toward).map Node.id) t)
      (shapes stored)
      (shapes (localChange D ((EditorOp.order selection toward).change D (sceneOf D stored))
        stored)) := by
  have hkind : ∀ n ∈ orderNodes D (sceneOf D stored) selection toward, n.kind ≠ .frame ∧
      ∃ sh ∈ shapes stored, idOf sh = some n.id ∧ kindOf sh = some n.kind.label := by
    intro n' hn'
    obtain ⟨n, hn, heq⟩ := List.mem_filterMap.mp hn'
    obtain ⟨hin, hk⟩ := mem_onBoard.mp hn
    obtain ⟨sh, hsh, -, hid, hlabel, -⟩ := h.read hfits (mem_all.mp hin) hk
    split at heq
    · cases heq
    · cases heq
      exact ⟨hk, sh, hsh, hid, hlabel⟩
  have hshapes : shapes (localChange D ((EditorOp.order selection toward).change D
      (sceneOf D stored)) stored) = ((orderNodes D (sceneOf D stored) selection toward).map
        fun n => (n, Rest.same)).foldl (putShape D) (shapes stored) := by
    have hfilter : (((orderNodes D (sceneOf D stored) selection toward).map
        fun n => (n, Rest.same)).filter fun w => w.1.kind ≠ .frame) =
        (orderNodes D (sceneOf D stored) selection toward).map fun n => (n, Rest.same) := by
      refine List.filter_eq_self.mpr fun w hw => ?_
      obtain ⟨n, hn, rfl⟩ := List.mem_map.mp hw
      exact decide_eq_true (hkind n hn).1
    cases hempty : (((orderNodes D (sceneOf D stored) selection toward).map
        fun n => (n, Rest.same)).isEmpty && ([] : List String).isEmpty) with
    | true =>
      rw [EditorOp.change, localChange, if_pos hempty]
      rw [Bool.and_eq_true, List.isEmpty_iff] at hempty
      rw [hempty.1, List.foldl_nil]
    | false =>
      rw [EditorOp.change, (localChange_lists D _ stored hempty).1, shapesAfter, hfilter,
        List.foldl_nil]
  have hids : (orderNodes D (sceneOf D stored) selection toward).map Node.id =
      ((orderNodes D (sceneOf D stored) selection toward).map fun n => (n, Rest.same)).map
        fun w => w.1.id := by
    rw [List.map_map]
    rfl
  rw [hshapes, hids]
  refine putAll_sent h.distinctShapes (fun w hw => ?_) ht (D.exact t ht hfit)
    fun sh hsh => hfits.exact (by norm_num) h.halves hsh
  obtain ⟨n, hn, rfl⟩ := List.mem_map.mp hw
  exact ⟨hz n hn, (hkind n hn).2⟩

/-- The editor sends the selection's shapes, where none of them is locked. -/
theorem Ranked.selected_iff (h : Ranked stored) (hfits : Fits 2 (shapes stored))
    {selection : List String} {toward : Where}
    (hopen : ∀ n ∈ sceneOf D stored, n.id ∈ selection → n.locked = false) {sh : Json}
    (hsh : sh ∈ shapes stored) (hdrawn : Drawn sh) {id : String} (hid : idOf sh = some id) :
    id ∈ selection ↔ id ∈ (orderNodes D (sceneOf D stored) selection toward).map Node.id := by
  constructor
  · intro hin
    obtain ⟨n, hn, hk, hnid, -⟩ := h.node (D := D) hfits hsh hdrawn
    rw [hid, Option.some.injEq] at hnid
    subst hnid
    refine List.mem_map.mpr ⟨_, List.mem_filterMap.mpr
      ⟨n, mem_onBoard.mpr ⟨mem_all.mpr hn, hk⟩, if_neg ?_⟩, rfl⟩
    rintro (hout | hlocked)
    · exact hout hin
    · rw [hopen n hn hin] at hlocked
      exact Bool.false_ne_true hlocked
  · intro hmem
    obtain ⟨n', hn', rfl⟩ := List.mem_map.mp hmem
    obtain ⟨n, -, heq⟩ := List.mem_filterMap.mp hn'
    split at heq
    · cases heq
    · next hin =>
      cases heq
      exact not_not.mp fun hout => hin (.inl hout)

theorem orderNodes_z {scene : Scene} (selection : List String) (toward : Where) {n : Node}
    (hn : n ∈ orderNodes D scene selection toward) :
    (toward = .front → n.z = D.round (((onBoard scene.all).getLast?.map Node.z).getD 0 + 1)) ∧
      (toward = .back → n.z = D.round (((onBoard scene.all).head?.map Node.z).getD 0 - 1)) := by
  obtain ⟨_, -, heq⟩ := List.mem_filterMap.mp hn
  split at heq
  · cases heq
  · cases heq
    constructor
    · rintro rfl
      rfl
    · rintro rfl
      rfl

/-- A call that leaves more shapes is one that adds some. -/
theorem found_of_more {doc' : Json} {new : List Json} (after : shapes doc' = shapes stored ++ new)
    (hnamed : ∀ sh ∈ new, (idOf sh).isSome = true) (effect : Effect c stored doc') :
    new = [] ∨ AddsSome c stored ∧ c.host.docPut 0 = .ok () := by
  have hnone : (Named.names idOf (shapes doc')).length ≤ (Named.names idOf (shapes stored)).length →
      new = [] := by
    intro hle
    rw [after, Named.names_append, List.length_append] at hle
    have hnil : Named.names idOf new = [] := List.length_eq_zero_iff.mp (by omega)
    refine List.eq_nil_iff_forall_not_mem.mpr fun sh hsh => ?_
    obtain ⟨id, hid⟩ := Option.isSome_iff_exists.mp (hnamed sh hsh)
    exact List.not_mem_nil (hnil ▸ Named.mem_names.mpr ⟨sh, hsh, hid⟩)
  cases effect with
  | wrote writes => exact .inl (hnone (by rw [writes.same.1]))
  | framed frame name put id kept => exact .inl (hnone (by rw [kept]))
  | added sh lead adds id ends put => exact .inr ⟨.inl ⟨lead, adds⟩, put⟩
  | removed i name put found unlocked after' =>
    exact .inl (hnone (by rw [after']; exact (Named.names_eraseIdx_sublist _ i).length_le))
  | copied new' name put copyable hids copies after' =>
    by_cases hnil : copyIds (load stored) (idsOf c.params) = []
    · refine .inl (hnone ?_)
      rw [after', Named.names_append, hids, hnil, List.append_nil]
    · exact .inr ⟨.inr ⟨name, copyable, hnil⟩, put⟩

/-- **One call** of a tool does right by the order shapes are drawn in, where it meets its
condition. -/
theorem Ranked.right_tool (h : Ranked stored) (hmeets : (Step.tool c).Meets stored) :
    Right N D stored (.tool c) := by
  obtain ⟨hm, hfits⟩ := hmeets.fits c rfl
  have htwo := two_le_margin c
  have hafter : Ranked (call N c stored).2 := h.tool hmeets
  have htop := Fits.top hfits hm
  have hbottom := Fits.bottom hfits hm
  have htopFit : |(((wholeZs (load stored)).max?.getD 0 + 1 : ℤ) : ℚ)| ≤ 2 ^ 52 := by
    have hbound := abs_add_le (((wholeZs (load stored)).max?.getD 0 : ℤ) : ℚ) 1
    rw [abs_one] at hbound
    push_cast
    linarith
  have hbottomFit : |(((wholeZs (load stored)).min?.getD 0 - 1 : ℤ) : ℚ)| ≤ 2 ^ 52 := by
    have hbound := abs_sub (((wholeZs (load stored)).min?.getD 0 : ℤ) : ℚ) 1
    rw [abs_one] at hbound
    push_cast
    linarith
  have hstacks := stacks_of (N := N) h.distinctShapes hm hfits
  have hsame : ∀ {R : Json → Json → Prop}, (∀ a b, R a b → idOf b = idOf a) →
      List.Forall₂ R (shapes stored) (shapes (call N c stored).2) →
      Lifted (shown D (call N c stored).2) (· ∉ Named.names idOf (shapes stored)) := by
    intro R hR hforall
    have hnames := names_of_forall₂ (hforall.imp hR)
    exact hafter.lifted_none fun id hid => hnames ▸ hid
  refine ⟨?_, ?_, ?_⟩
  · rintro ⟨name, toward, ok⟩
    change Lifted (shown D (call N c stored).2) _
    cases hstacks with
    | kept kept hname => exact absurd name hname
    | refused kept refused => exact absurd (refused.symm.trans ok) Bool.false_ne_true
    | fewer hname after =>
      rw [name] at hname
      exact absurd hname (by decide)
    | more new hname after above =>
      rw [name] at hname
      exact absurd hname (by decide)
    | moved moved front back => exact absurd toward front
    | front _ sent =>
      refine hafter.lifted (fits_of_sent (by linarith) sent hfits htopFit) ?_
      refine over_of_sent sent (fun _ _ _ _ _ => Iff.rfl) fun sh hsh hdrawn hother => ?_
      obtain ⟨horders, hput⟩ := orders_of_ok .front name toward ok
      have hlt := lt_top (hmeets.top c rfl hput horders) hsh hdrawn hother
      push_cast
      exact hlt
    | back hback sent =>
      rw [toward] at hback
      exact absurd hback (by decide)
  · rintro ⟨name, toward, ok⟩
    change Lifted (shown D (call N c stored).2) _
    cases hstacks with
    | kept kept hname => exact absurd name hname
    | refused kept refused => exact absurd (refused.symm.trans ok) Bool.false_ne_true
    | fewer hname after =>
      rw [name] at hname
      exact absurd hname (by decide)
    | more new hname after above =>
      rw [name] at hname
      exact absurd hname (by decide)
    | moved moved front back => exact absurd toward back
    | front hfront sent =>
      rw [toward] at hfront
      exact absurd hfront (by decide)
    | back _ sent =>
      refine hafter.lifted (fits_of_sent (by linarith) sent hfits hbottomFit) ?_
      refine under_of_sent (p := (· ∈ idsOf c.params)) sent (fun _ _ _ _ _ => Iff.rfl)
        fun sh hsh hdrawn hother => ?_
      obtain ⟨horders, hput⟩ := orders_of_ok .back name toward ok
      have hlt := bottom_lt (hmeets.bottom c rfl hput horders) hsh hdrawn hother
      push_cast
      exact hlt
  · change Lifted (shown D (call N c stored).2) _
    cases hstacks with
    | kept kept name => exact hsame (fun _ _ hz => hz.id) kept
    | refused kept refused =>
      refine hafter.lifted_none fun id hid => ?_
      rw [kept] at hid
      exact hid
    | fewer name after =>
      obtain ⟨i, hi⟩ := after
      refine hafter.lifted_none fun id hid => ?_
      rw [hi] at hid
      exact (Named.names_eraseIdx_sublist _ i).subset hid
    | more new name after above =>
      have hdistinct := hafter.distinctShapes
      have hnamed : ∀ sh ∈ new, (idOf sh).isSome = true := fun sh hsh =>
        hafter.identified sh (List.mem_append_left _ (after ▸ List.mem_append_right _ hsh))
      have hfound := found_of_more after hnamed (effect_of (N := N) c stored)
      obtain rfl | ⟨hadds, hput⟩ := hfound
      · rw [List.append_nil] at after
        exact hafter.lifted_none fun id hid => after ▸ hid
      have hreads := hmeets.added c rfl hput hadds
      refine hafter.lifted ?_ ?_
      · rw [after]
        intro sh hsh
        rw [add_zero]
        obtain hsh | hsh := List.mem_append.mp hsh
        · linarith [hfits sh hsh]
        · obtain ⟨i, hi, hfit, hlow⟩ := above sh hsh
          rw [zOf_num hi]
          have hlow' : (((wholeZs (load stored)).max?.getD 0 : ℤ) : ℚ) + 1 ≤ i := by
            exact_mod_cast hlow
          rw [abs_le]
          constructor
          · linarith [(abs_le.mp (le_refl |(((wholeZs (load stored)).max?.getD 0 : ℤ) : ℚ)|)).1]
          · exact hfit
      · rw [after] at hdistinct ⊢
        refine over_new hdistinct fun sh hsh sh' hsh' hdrawn => ?_
        obtain ⟨i, hi, -, hlow⟩ := above sh hsh
        have hlow' : (((wholeZs (load stored)).max?.getD 0 : ℤ) : ℚ) + 1 ≤ i := by
          exact_mod_cast hlow
        rw [zOf_num hi]
        have hunnamed : ¬IsNamed [] sh' := by rintro ⟨_, hin, -⟩; exact List.not_mem_nil hin
        linarith [lt_top hreads hsh' hdrawn hunnamed]
    | moved moved front back => exact hsame (fun _ _ hz => hz.id) moved
    | front toward sent => exact hsame (fun _ _ hz => hz.id) sent
    | back toward sent => exact hsame (fun _ _ hz => hz.id) sent

/-- **One operation** of the editor does right by the order shapes are drawn in, where it meets its
condition. -/
theorem Ranked.right_editor (h : Ranked stored) (hmeets : (Step.edit op).Meets stored) :
    Right N D stored (.edit op) := by
  have hfits := hmeets.fitsEditor op rfl
  obtain ⟨hnodup, hnew⟩ := hmeets.drawn op rfl
  have hafter : Ranked (localChange D (op.change D (sceneOf D stored)) stored) := h.edited hmeets
  refine ⟨fun hsends => ?_, fun hsends => ?_, ?_⟩
  · cases op with
    | order selection toward =>
      obtain ⟨rfl, hopen⟩ := hsends
      obtain ⟨hhalf, hfit, hlt⟩ := h.orderTop (D := D) hfits
      have hround := D.exact _ hhalf hfit
      have hsent := h.order_sent hfits hhalf hfit fun n hn =>
        ((orderNodes_z selection .front hn).1 rfl).trans hround
      refine hafter.lifted (fits_of_sent (by norm_num) hsent hfits hfit) ?_
      refine over_of_sent hsent (fun sh hsh hdrawn id hid =>
        h.selected_iff hfits hopen hsh hdrawn hid) fun sh hsh hdrawn _ => ?_
      obtain ⟨n, hn, hk, -, hz⟩ := h.node (D := D) hfits hsh hdrawn
      rw [← hz]
      exact hlt n hn hk
    | _ => exact hsends.elim
  · cases op with
    | order selection toward =>
      obtain ⟨rfl, hopen⟩ := hsends
      obtain ⟨hhalf, hfit, hlt⟩ := h.orderBottom (D := D) hfits
      have hround := D.exact _ hhalf hfit
      have hsent := h.order_sent hfits hhalf hfit fun n hn =>
        ((orderNodes_z selection .back hn).2 rfl).trans hround
      refine hafter.lifted (fits_of_sent (by norm_num) hsent hfits hfit) ?_
      refine under_of_sent (p := (· ∈ selection)) hsent (fun sh hsh hdrawn id hid =>
        h.selected_iff hfits hopen hsh hdrawn hid) fun sh hsh hdrawn _ => ?_
      obtain ⟨n, hn, hk, -, hz⟩ := h.node (D := D) hfits hsh hdrawn
      rw [← hz]
      exact hlt n hn hk
    | _ => exact hsends.elim
  · change Lifted (shown D (localChange D (op.change D (sceneOf D stored)) stored)) _
    cases h.editor (D := D) hfits hnodup hnew with
    | moved moved frames identified =>
      have hnames := names_of_sameHalf moved
      exact hafter.lifted_none fun id hid => hnames ▸ hid
    | fewer shapes frames =>
      exact hafter.lifted_none fun id hid => (shapes.filterMap idOf).subset hid
    | more new newFrames hshapes frames identified distinct fresh above =>
      have hdistinct := hafter.distinctShapes
      refine hafter.lifted ?_ ?_
      · rw [hshapes]
        intro sh hsh
        rw [add_zero]
        obtain hsh | hsh := List.mem_append.mp hsh
        · linarith [hfits sh hsh]
        · exact (above sh hsh).2.1
      · rw [hshapes] at hdistinct ⊢
        exact over_new hdistinct fun sh hsh sh' hsh' hd => (above sh hsh).2.2 sh' hsh' hd

theorem history_concat (steps : List Step) (s : Step) :
    history N D (steps ++ [s]) = s.apply N D (history N D steps) := by
  rw [history, List.foldl_append]
  rfl

theorem ranked_empty : Ranked (.obj []) := by
  have hsound := sound_empty
  have hshapes : shapes (.obj []) = [] := by
    rw [shapes, load, Json.withDefaults]
    rfl
  refine ⟨hsound.identified, hsound.distinct, ?_⟩
  rw [hshapes]
  simp

/-- **Front is front**, over every run of the whiteboard's tools and the editor's operations from an
empty board whose steps all meet their condition: every step does right by the order shapes are
drawn in. -/
theorem front_is_front {steps : List Step}
    (h : ∀ before s after, steps = before ++ s :: after → s.Meets (history N D before))
    {before after : List Step} (hsplit : steps = before ++ s :: after) :
    Right N D (history N D before) s := by
  have hranked : ∀ (run rest : List Step), steps = run ++ rest → Ranked (history N D run) := by
    intro run
    induction run using List.reverseRecOn with
    | nil => exact fun _ _ => ranked_empty
    | append_singleton run s ih =>
      intro rest hrest
      rw [List.append_assoc] at hrest
      rw [history_concat]
      exact (ih _ hrest).step (h run s rest hrest)
  have hbefore := hranked before _ hsplit
  have hmeets := h before s after hsplit
  cases s with
  | tool c => exact hbefore.right_tool hmeets
  | edit op => exact hbefore.right_editor hmeets

end Runs

/-- Doubles as exact as can be. -/
def exactly : Doubles where
  round := id
  exact _ _ _ := rfl

/-- A note is sent backward in the editor, to a number that is not whole; and where there is another,
a tool sends it to the front again. -/
def sending : List Step :=
  [.tool note, .edit (.order ["s1_0"] .backward), .tool note,
    .tool (plainCall "canvas.order" [("ids", .arr [.str "s1_0"])])]

/-- The board that a step of `sending` comes to. -/
def sendingAt (k : Fin sending.length) : Json :=
  history wholes exactly (sending.take k)

instance (sh : Json) : Decidable (Drawn sh) :=
  inferInstanceAs (Decidable (_ = true))

instance (ids : List String) (doc : Json) : Decidable (TopWhole ids doc) :=
  inferInstanceAs (Decidable (∀ sh ∈ shapesOf doc, Drawn sh → ¬(∃ id ∈ ids, idOf sh = some id) → _))

/-- Whatever the step, its numbers are small, and it would find what it is to meet. -/
theorem sending_small : ∀ k : Fin sending.length,
    (∀ sh ∈ shapes (sendingAt k), -4 ≤ zOf sh ∧ zOf sh ≤ 4) ∧
      nextId (load (sendingAt k)) "s" 0 ∉ ids (sendingAt k) ∧ TopWhole [] (load (sendingAt k)) ∧
      TopWhole ["s1_0"] (load (sendingAt k)) := by
  decide +kernel

theorem sending_fits (k : Fin sending.length) {m : ℚ} (hm : m ≤ 3) :
    Fits m (shapes (sendingAt k)) := by
  intro sh hsh
  have habs := abs_le.mpr ((sending_small k).1 sh hsh)
  norm_num
  linarith

/-- A tool of `sending` puts a note or sends one to the front. -/
theorem sending_tools : ∀ k : Fin sending.length, ∀ c, sending[k] = .tool c →
    c = note ∨ c = plainCall "canvas.order" [("ids", .arr [.str "s1_0"])] := by
  rintro ⟨k, hk⟩ c heq
  match k with
  | 0 | 2 =>
    cases heq
    exact .inl rfl
  | 1 => cases heq
  | 3 =>
    cases heq
    exact .inr rfl

theorem sending_meets (k : Fin sending.length) : sending[k].Meets (sendingAt k) := by
  obtain ⟨-, hfresh, hnotes, hrest⟩ := sending_small k
  refine ⟨fun c heq hput => ⟨fun lead hadds => ?_, fun name => ?_, fun name => ?_⟩,
    fun op heq => ?_, fun c heq hput hadds => hnotes, fun c heq hput horders => ?_,
    fun c heq hput horders => ?_, fun c heq => ?_, fun op heq => sending_fits k (by norm_num)⟩
  · obtain rfl | rfl := sending_tools k c heq
    · cases hadds with
      | sticky => exact hfresh
      | shape name | connector name | label name => exact absurd name (by decide)
    · cases hadds with
      | shape name | sticky name | connector name | label name => exact absurd name (by decide)
  · obtain rfl | rfl := sending_tools k c heq
    · exact absurd name (by decide)
    · exact absurd name (by decide)
  · obtain rfl | rfl := sending_tools k c heq
    · exact absurd name (by decide)
    · exact absurd name (by decide)
  · have hnew : op.newIds = [] := by
      obtain ⟨k, hk⟩ := k
      match k with
      | 0 | 2 | 3 => cases heq
      | 1 =>
        cases heq
        rfl
    rw [hnew]
    exact ⟨List.nodup_nil, fun _ hid => absurd hid List.not_mem_nil⟩
  · obtain rfl | rfl := sending_tools k c heq
    · exact absurd horders.name (by decide)
    · exact hrest
  · obtain rfl | rfl := sending_tools k c heq
    · exact absurd horders.name (by decide)
    · exact absurd horders.toward (by decide)
  · have hmargin : margin c ≤ 3 := by
      obtain rfl | rfl := sending_tools k c heq
      · have hids : idsOf note.params = [] := by decide +kernel
        rw [margin, hids]
        norm_num
      · rw [margin]
        exact le_of_eq (by decide +kernel)
    exact ⟨hmargin.trans (by norm_num), sending_fits k hmargin⟩

theorem front_is_front_sending : Right wholes exactly (history wholes exactly (sending.take 3))
    (.tool (plainCall "canvas.order" [("ids", .arr [.str "s1_0"])])) :=
  @front_is_front wholes exactly _ sending
    (fun before s after hsplit =>
      Library.forall_split (P := fun run s => s.Meets (history wholes exactly run)) sending_meets
        before s after hsplit) (sending.take 3) (sending.drop 4) rfl

/-- A note, which the editor brings forward. -/
def stepped : List Step :=
  [.tool note, .edit (.order ["s1_0"] .forward)]

/-- The next note is drawn below it: it is put at 1, as if there were no other. -/
theorem note_below :
    ((sceneOf exactly ((Step.tool note).apply wholes exactly
      (history wholes exactly stepped))).map fun n => (n.id, n.kind, n.z)) =
        [("s1_0", .sticky, 5 / 2), ("s2_0", .sticky, 1)] ∧
      ¬Right wholes exactly (history wholes exactly stepped) (.tool note) := by
  have hscene : ((sceneOf exactly ((Step.tool note).apply wholes exactly
      (history wholes exactly stepped))).map fun n => (n.id, n.kind, n.z)) =
        [("s1_0", .sticky, 5 / 2), ("s2_0", .sticky, 1)] := by
    decide +kernel
  have hnames : Named.names idOf (shapes (history wholes exactly stepped)) = ["s1_0"] := by
    decide +kernel
  refine ⟨hscene, fun hright => ?_⟩
  obtain ⟨b, rest, heq, hb, hrest⟩ := List.map_eq_cons_iff.mp hscene
  obtain ⟨a, rest', rfl, ha, -⟩ := List.map_eq_cons_iff.mp hrest
  simp only [Prod.mk.injEq] at ha hb
  obtain ⟨hid, hkind, hz⟩ := ha
  obtain ⟨hid', hkind', hz'⟩ := hb
  have hina : a ∈ shown exactly ((Step.tool note).apply wholes exactly
      (history wholes exactly stepped)) := mem_all.mpr (heq ▸ by simp)
  have hinb : b ∈ shown exactly ((Step.tool note).apply wholes exactly
      (history wholes exactly stepped)) := mem_all.mpr (heq ▸ List.mem_cons_self)
  obtain ⟨i, j, hij, hi, hj⟩ := hright.added a hina b hinb (by rw [hkind]; decide)
    (by rw [hkind']; decide) (by rw [hnames, hid]; decide) (by rw [hnames, hid']; decide)
  obtain ⟨hil, rfl⟩ := List.getElem?_eq_some_iff.mp hi
  obtain ⟨hjl, rfl⟩ := List.getElem?_eq_some_iff.mp hj
  have hle := List.pairwise_iff_getElem.mp (pairwise_all _) i j hil hjl hij
  have hcontra : (5 / 2 : ℚ) ≤ 1 := hz'.symm.trans_le (hle.trans_eq hz)
  norm_num at hcontra

end Whiteboard

end LocalSpace
