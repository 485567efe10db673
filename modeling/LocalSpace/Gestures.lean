import Mathlib.Algebra.Order.Group.Unbundled.Abs
import Mathlib.Data.List.Dedup
import LocalSpace.Canvas

/-!
# Gestures

The canvas editor: the pointer, the keyboard and the text editor turned into changes, each into the
scene and out to the replica, which writes it into its document; and what arrives from elsewhere,
which the replica shows. What a pointer finds and how far it is snapped come with the event.
-/

namespace LocalSpace

namespace Canvas

open Whiteboard (Kind Where)

/-! ### The editor -/

/-- The nodes a change sets, and the ids it deletes. -/
structure Change where
  set : List Node
  deleted : List String

/-- The sides of a box that a handle moves. -/
structure Handle where
  e : Bool
  s : Bool
  w : Bool
  n : Bool

/-- A gesture: what it moves or resizes as it was at its start, and what it began with. -/
inductive Drag where
  | pan
  | move (origin : List Node) (moved : Bool)
  | resize (handle : Handle) (origin : Node)
  | marquee (additive : Bool)
  | create (tool : Kind) (start : Point)
  | arrow (start : Point) (fromId : Option String)
  | ink

def Drag.origins : Drag → List Node
  | move origin _ => origin
  | resize _ origin => [origin]
  | _ => []

/-- The replica with its document and what it has shown of it, and the editor: the text editor is
open on a node, with the text it holds. -/
structure State where
  board : Board
  shown : List Node
  docSelection : List String
  scene : List Node
  selection : List String
  editing : Option (String × String)
  drag : Option Drag

/-- Hundredths. -/
def round (v : ℚ) : ℚ :=
  ⌊v * 100 + 1 / 2⌋ / 100

def movePoint (p : Point) (dx dy : ℚ) : Point :=
  (round (p.1 + dx), round (p.2 + dy))

def moved (n : Node) (dx dy : ℚ) : Node :=
  { n with
    x := round (n.x + dx)
    y := round (n.y + dy)
    points := n.points.map fun p => movePoint p dx dy
    startAt := n.startAt.map fun p => movePoint p dx dy
    endAt := n.endAt.map fun p => movePoint p dx dy }

def resized (origin : Node) (handle : Handle) (dx dy : ℚ) : Node :=
  let w := if handle.e then max 20 (origin.w + dx) else origin.w
  let h := if handle.s then max 20 (origin.h + dy) else origin.h
  let w := if handle.w then max 20 (origin.w - dx) else w
  let h := if handle.n then max 20 (origin.h - dy) else h
  { origin with
    x := round (if handle.w then origin.x + origin.w - w else origin.x)
    y := round (if handle.n then origin.y + origin.h - h else origin.y)
    w := round w
    h := round h }

/-- Whether `trim` leaves nothing. -/
def isBlank (text : String) : Bool :=
  text.toList.all fun c =>
    (0x09 ≤ c.toNat ∧ c.toNat ≤ 0x0D) ∨ (0x2000 ≤ c.toNat ∧ c.toNat ≤ 0x200A) ∨
      c.toNat ∈ [0x20, 0xA0, 0x1680, 0x2028, 0x2029, 0x202F, 0x205F, 0x3000, 0xFEFF]

/-- What is in a frame is carried with it, once. -/
def carryInner (frame : Node) (origin : List Node) (inner : Node) : List Node :=
  if inner.frame = some frame.id ∧ inner.locked = false ∧ (Scene.get origin inner.id).isNone then
    Scene.keep origin inner
  else origin

def carry (scene origin : List Node) (id : String) : List Node :=
  match Scene.get scene id with
  | none => origin
  | some n =>
    if n.locked then origin
    else if n.kind = .frame then (Scene.all scene).foldl (carryInner n) (Scene.keep origin n)
    else Scene.keep origin n

/-- What a move carries: the selection's open nodes, and what is in its frames. -/
def originsOf (scene : List Node) (selection : List String) : List Node :=
  selection.foldl (carry scene) []

/-- A node an arrow can end at. -/
def joins (scene : List Node) (id : String) : Bool :=
  (Scene.get scene id).any fun n => n.kind ≠ .arrow ∧ n.kind ≠ .ink ∧ n.kind ≠ .frame

namespace State

variable (M : Measure) (s : State)

/-- `heldIds`. -/
@[grind =]
def held : List String :=
  (s.editing.map Prod.fst).toList ++ (s.drag.elim [] Drag.origins).map Node.id

/-- `pruneSelection`. -/
def prune : State :=
  { s with
    selection := s.selection.filter fun id => (Scene.get s.scene id).isSome
    editing := s.editing.filter fun e => (Scene.get s.scene e.1).isSome }

/-- `Replica.local`. -/
@[grind =]
def localChange (change : Change) : State :=
  { s with
    board := change.set.foldl Board.put (change.deleted.foldl Board.remove s.board)
    shown := (change.set.foldl Scene.keep s.shown).filter fun n => n.id ∉ change.deleted }

/-- `Editor.commit`, which the replica hears. A node is emitted as the scene laid it out. -/
@[grind =]
def commit (change : Change) : State :=
  let after := prune { s with
    scene := change.deleted.foldl (Scene.delete M) (change.set.foldl (Scene.set M) s.scene) }
  if change.set.isEmpty && change.deleted.isEmpty then after
  else after.localChange ⟨change.set.map (laid M), change.deleted⟩

def applyRemote (change : Change) : State :=
  prune { s with
    scene := (change.deleted.filter fun id => id ∉ s.held).foldl (Scene.delete M)
      ((change.set.filter fun n => n.id ∉ s.held).foldl (Scene.set M) s.scene) }

/-- `Editor.load`: what is held stays as it is. -/
@[grind =]
def load (nodes : List Node) : State :=
  let keep := s.held.filterMap (Scene.get s.scene)
  let scene := (nodes.map fun n => (lookup Node.id keep n.id).getD n).foldl (Scene.set M) []
  prune { s with
    scene := (keep.filter fun n => (Scene.get scene n.id).isNone).foldl (Scene.set M) scene }

/-- `Editor.select`: where as many are named as are selected, and each of them is, the selection
stays, though one be named twice. -/
def select (ids : List String) : State :=
  let next := ids.filter fun id => (Scene.get s.scene id).isSome
  let same := next.length = s.selection.length ∧ ∀ id ∈ next, id ∈ s.selection
  { s with selection := if same then s.selection else next.eraseDups }

/-- `Replica.show`. -/
def showDoc (loading : Bool) (doc : Board) : State :=
  let nodes := fromDoc doc
  let next := nodes.foldl Scene.keep []
  let s : State := { s with board := doc }
  let set := nodes.filter fun n => (Scene.get s.shown n.id).all fun before => !sameNode before n
  let deleted := (s.shown.map Node.id).filter fun id => (Scene.get next id).isNone
  let s : State := if loading then s.load M nodes
    else if set.isEmpty && deleted.isEmpty then s
    else s.applyRemote M ⟨set, deleted⟩
  let s : State := { s with shown := next }
  let selection := doc.selection.filter fun id => (Scene.get next id).isSome
  if selection = s.docSelection then s else { s with docSelection := selection }.select selection

/-- `stopEditing(true)`. -/
def stopEditing : State :=
  match s.editing with
  | none => s
  | some (id, text) =>
    let s := { s with editing := none }
    match Scene.get s.scene id with
    | none => s
    | some n =>
      if n.kind = .text ∧ isBlank text then s.commit M ⟨[], [id]⟩
      else if n.kind = .text ∨ n.text ≠ text then s.commit M ⟨[{ n with text }], []⟩
      else s

def startEditing (id : String) : State :=
  match Scene.get s.scene id with
  | none => s
  | some n =>
    if n.kind = .arrow ∨ n.kind = .ink ∨ n.kind = .frame ∨ n.locked then s
    else if s.editing.map Prod.fst = some id then s
    else { s.stopEditing M with editing := some (id, n.text) }

/-- The text editor's input: a label grows with its text. -/
def type (text : String) : State :=
  match s.editing with
  | none => s
  | some (id, _) =>
    let s := { s with editing := some (id, text) }
    match Scene.get s.scene id with
    | none => s
    | some n => if n.kind = .text then { s with scene := Scene.set M s.scene { n with text } } else s

def createNode (kind : Kind) (id : String) (place size : Point) : Node :=
  let frames := (s.scene.filter fun n => n.kind = .frame).length + 1
  { id
    kind
    x := place.1
    y := place.2
    w := size.1
    h := size.2
    fill := defaultFill kind
    text := ""
    frame := if kind = .frame then none else Scene.frameAt s.scene place
    z := Scene.nextZ s.scene kind
    locked := false
    size := if kind = .text then some 16 else none
    fromId := none
    toId := none
    startAt := none
    endAt := none
    points := []
    name := if kind = .frame then some s!"Frame {frames}" else none }

def create (kind : Kind) (id : String) (place size : Point) : State :=
  s.commit M ⟨[s.createNode kind id place size], []⟩

/-- The nodes that are selected. -/
def selected : List Node :=
  s.selection.filterMap (Scene.get s.scene)

/-- Nothing is committed where nothing is set. -/
def commitSet (set : List Node) : State :=
  if set.isEmpty then s else s.commit M ⟨set, []⟩

end State

/-! ### What the user does -/

/-- What the pointer comes down on, with the tool in hand. -/
inductive Press where
  | hand
  | handle (handle : Handle)
  | hit (id : String) (shift : Bool)
  | empty (shift : Bool)
  | shape (tool : Kind) (place : Point)
  | text (id : String) (place : Point)
  | arrow (hit : Option String) (place : Point)
  | ink

/-- Where the pointer is let go: how far from the start as snapped, whether that is nearer than the
gesture asks for, and what is there. -/
structure Release where
  p : Point
  dx : ℚ
  dy : ℚ
  near : Bool
  hit : Option String
  ids : List String
  points : List Point
  id : String

inductive Op where
  | deleteSelection
  | setFill (fill : Fill)
  | setLocked (locked : Bool)
  | order (toward : Where)
  | duplicate (ids : List String)
  | nudge (dx dy : ℚ)

inductive Event where
  | load (doc : Board)
  | receive (doc : Board)
  | select (ids : List String)
  | press (on : Press)
  | follow (dx dy : ℚ)
  | release (r : Release)
  | doubleClick (hit : Option String) (id : String) (place : Point)
  | escape
  | enter
  | type (text : String)
  | closeText
  | op (op : Op)

section Apply

variable (M : Measure) (s : State)

/-- What a press begins, the text editor closed. -/
def Press.begin : Press → State
  | hand => { s with drag := some .pan }
  | handle h =>
    match s.selection.filterMap (Scene.get s.scene), s.selection with
    | [n], [_] =>
      if n.locked ∨ n.kind = .arrow ∨ n.kind = .ink then s
      else { s with drag := some (.resize h n) }
    | _, _ => s
  | hit id shift =>
    let s := if shift then
        s.select (if id ∈ s.selection then s.selection.filter fun i => i ≠ id
          else s.selection ++ [id])
      else if id ∈ s.selection then s else s.select [id]
    { s with drag := some (.move (originsOf s.scene s.selection) false) }
  | empty shift => { (if shift then s else s.select []) with drag := some (.marquee shift) }
  | shape tool place => { s with drag := some (.create tool place) }
  | text id place =>
    ((s.create M .text id place (defaultSize .text)).select [id]).startEditing M id
  | arrow target place =>
    { s with drag := some (.arrow place (target.filter fun id => joins s.scene id)) }
  | ink => { s with drag := some .ink }

/-- `onPointerDown`. -/
@[grind =]
def Press.apply (on : Press) : State :=
  on.begin M (s.stopEditing M)

/-- `follow`: a move or a resize as far as it is snapped. -/
def follow (dx dy : ℚ) : State :=
  match s.drag with
  | some (.move origin _) =>
    { s with
      scene := (origin.map fun n => moved n dx dy).foldl (Scene.set M) s.scene
      drag := some (.move origin true) }
  | some (.resize h origin) => { s with scene := Scene.set M s.scene (resized origin h dx dy) }
  | _ => s

/-- A shape dropped into a frame belongs to it; out of one, to none. -/
def dropped (scene origin : List Node) (m : Node) : Node :=
  if m.kind ≠ .frame ∧ m.kind ≠ .arrow ∧ m.frame.getD "" ∉ origin.map Node.id then
    { m with frame := Scene.frameAt scene (m.x + m.w / 2, m.y + m.h / 2) }
  else m

def arrowNode (r : Release) (start : Point) (fromId toId : Option String) : Node where
  id := r.id
  kind := .arrow
  x := start.1
  y := start.2
  w := 0
  h := 0
  fill := .grey
  text := ""
  frame := none
  z := Scene.nextZ s.scene .arrow
  locked := false
  size := none
  fromId := fromId
  toId := toId
  startAt := some start
  endAt := some r.p
  points := []
  name := none

def inkNode (r : Release) : Node where
  id := r.id
  kind := .ink
  x := 0
  y := 0
  w := 0
  h := 0
  fill := .blue
  text := ""
  frame := none
  z := Scene.nextZ s.scene .ink
  locked := false
  size := none
  fromId := none
  toId := none
  startAt := none
  endAt := none
  points := r.points.map fun p => (round p.1, round p.2)
  name := none

/-- The gesture's ending, its drag over. -/
@[grind =]
def Release.finish (r : Release) : Drag → State
  | .pan => s
  | .move _ false => s
  | .move origin true =>
    s.commit M ⟨origin.map fun n => dropped s.scene origin (moved n r.dx r.dy), []⟩
  | .resize h origin => s.commit M ⟨[resized origin h r.dx r.dy], []⟩
  | .marquee additive =>
    if r.near then s else s.select (if additive then s.selection ++ r.ids else r.ids)
  | .create tool start =>
    let corner : Point := (min start.1 r.p.1, min start.2 r.p.2)
    let size : Point := if r.near then defaultSize tool
      else (max 20 |start.1 - r.p.1|, max 20 |start.2 - r.p.2|)
    let place : Point := if r.near then (start.1 - size.1 / 2, start.2 - size.2 / 2) else corner
    let s := (s.create M tool r.id place size).select [r.id]
    if tool = .sticky then s.startEditing M r.id else s
  | .arrow start fromId =>
    let toId := r.hit.filter fun id => joins s.scene id ∧ fromId ≠ some id
    if fromId = none ∧ toId = none ∧ r.near then s
    else (s.commit M ⟨[arrowNode s r start fromId toId], []⟩).select [r.id]
  | .ink => if r.points.length < 2 then s else s.commit M ⟨[inkNode s r], []⟩

/-- `onPointerUp`. -/
@[grind =]
def Release.apply (r : Release) : State :=
  match s.drag with
  | none => s
  | some drag => r.finish M { s with drag := none } drag

def doubleClick (hit : Option String) (id : String) (place : Point) : State :=
  match hit.bind (Scene.get s.scene) with
  | some n =>
    if n.kind = .sticky ∨ n.kind = .rect ∨ n.kind = .ellipse ∨ n.kind = .text then
      (s.select [n.id]).startEditing M n.id
    else s
  | none =>
    let size := defaultSize .sticky
    ((s.create M .sticky id (place.1 - size.1 / 2, place.2 - size.2 / 2) size).select
      [id]).startEditing M id

@[grind =]
def ordered (toward : Where) : List Node :=
  let all := (Scene.all s.scene).filter fun n => n.kind ≠ .frame
  let top := (all.getLast?.map Node.z).getD 0 + 1
  let bottom := (all.head?.map Node.z).getD 0 - 1
  (all.filter fun n => n.id ∈ s.selection ∧ n.locked = false).map fun n =>
    { n with z := match toward with
      | .front => top
      | .back => bottom
      | .forward => n.z + 3 / 2
      | .backward => n.z - 3 / 2 }

@[grind =]
def copied (ids : List String) : List Node :=
  ((s.selected.filter fun n => n.kind ≠ .arrow).zip ids).map fun c =>
    { c.1 with
      id := c.2
      x := c.1.x + 24
      y := c.1.y + 24
      z := Scene.nextZ s.scene c.1.kind
      points := c.1.points.map fun p => (p.1 + 24, p.2 + 24) }

@[grind =]
def Op.apply : Op → State
  | deleteSelection =>
    let ids := s.selection.filter fun id => !(Scene.get s.scene id).any Node.locked
    if ids.isEmpty then s else s.commit M ⟨[], ids⟩
  | setFill fill =>
    s.commitSet M ((s.selected.filter fun n =>
      n.locked = false ∧ n.kind ≠ .frame ∧ n.kind ≠ .text).map fun n => { n with fill })
  | setLocked locked => s.commitSet M (s.selected.map fun n => { n with locked })
  | order toward => s.commitSet M (ordered s toward)
  | duplicate ids =>
    if (copied s ids).isEmpty then s
    else (s.commit M ⟨copied s ids, []⟩).select ((copied s ids).map Node.id)
  | nudge dx dy =>
    s.commitSet M ((s.selected.filter fun n => n.locked = false).map fun n => moved n dx dy)

/-- One event. A key is the text editor's while it is open. -/
@[grind =]
def Event.apply : Event → State
  | load doc => s.showDoc M true doc
  | receive doc => s.showDoc M false doc
  | select ids => s.select ids
  | press on => on.apply M s
  | follow dx dy => Canvas.follow M s dx dy
  | release r => r.apply M s
  | doubleClick hit id place => Canvas.doubleClick M s hit id place
  | escape =>
    if s.editing.isSome then s
    else if s.drag.isSome then { s with drag := none }
    else s.select []
  | enter =>
    match s.editing, s.selection with
    | none, [id] => s.startEditing M id
    | _, _ => s
  | type text => s.type M text
  | closeText => s.stopEditing M
  | op o => o.apply M s

end Apply

end Canvas

end LocalSpace
