import LocalSpace.Harness
import LocalSpace.Library.Decimal
import LocalSpace.Library.Named

/-!
# The whiteboard

`whiteboard-logic`: the tools of the board, over its document. Coordinates are floating-point
numbers, of which nothing is asked here (`Floats`); stacking indices are `i64`, which wrap around.
-/

namespace LocalSpace

/-- Floating-point numbers, and how JSON holds them. -/
structure Floats where
  F : Type
  /-- `Value::as_f64`. -/
  ofJson : Json → Option F
  /-- `json!(x)`: null where the number is not finite. -/
  toJson : F → Json
  /-- A decimal constant: a mantissa and an exponent. -/
  lit : Int → Int → F
  add : F → F → F
  sub : F → F → F
  mul : F → F → F
  div : F → F → F
  min : F → F → F
  max : F → F → F
  round : F → F
  /-- `partial_cmp` says less. -/
  less : F → F → Bool
  /-- `f64::MAX` and `f64::MIN`. -/
  largest : F
  smallest : F

namespace Whiteboard

open Library

/-- An `i64` that wraps around. -/
def i64 (i : Int) : Int :=
  Int.bmod i (2 ^ 64)

/-! ### The document -/

def defaults : List (String × Json) :=
  [("title", .str "Board"), ("frames", .arr []), ("shapes", .arr []), ("selection", .arr [])]

@[grind =]
def load (stored : Json) : Json :=
  .withDefaults defaults stored

/-- The shapes of a document; none where they are no array, which no shape is ever found in. -/
def shapesOf (doc : Json) : List Json :=
  (doc.atKey "shapes").asArray.getD []

def framesOf (doc : Json) : List Json :=
  (doc.atKey "frames").asArray.getD []

def nextId (doc : Json) (lead : String) (nowMs : Nat) : String :=
  let n := (shapesOf doc).length + (framesOf doc).length + 1
  s!"{lead}{n}_{nowMs % 100000}"

def shapeIndex (doc : Json) (id : String) : Option Nat :=
  Named.place idOf id (shapesOf doc)

/-- The `ids` these tools take. -/
def idsOf (params : Json) : List String :=
  (((params.get? "ids").bind Json.asArray).map fun list => list.filterMap Json.asStr).getD []

/-- The next free stacking index. -/
def nextZ (doc : Json) : Int :=
  i64 ((((shapesOf doc).filterMap fun sh => (sh.atKey "z").asI64).max?).getD 0 + 1)

def kindOf (sh : Json) : Option String :=
  (sh.atKey "kind").asStr

def locked (sh : Json) : Bool :=
  ((sh.atKey "locked").asBool).getD false

/-- A document with its shapes written. -/
@[grind =]
def withShapes (doc : Json) (shapes : List Json) : Json :=
  doc.setKey "shapes" (.arr shapes)

/-- One shape more; where the shapes are no array, the code panics. -/
@[grind =]
def push (stored doc sh : Json) (k : Json → Reply × Json) : Reply × Json :=
  match (doc.atKey "shapes").asArray with
  | none => (.trap, stored)
  | some shapes => k (withShapes doc (shapes ++ [sh]))

/-- `edit` applied to every named shape that is not locked: how many changed, or the first that is
missing or refused because it is locked. -/
def editEach (edit : Json → Json) : List String → Json → Except String (Nat × Json)
  | [], doc => .ok (0, doc)
  | id :: rest, doc =>
    match shapeIndex doc id with
    | none => .error s!"no shape `{id}`"
    | some i =>
      if locked ((shapesOf doc).getD i .null) then .error s!"`{id}` is locked; unlock it first"
      else match editEach edit rest (withShapes doc ((shapesOf doc).modify i edit)) with
        | .error e => .error e
        | .ok (changed, doc) => .ok (changed + 1, doc)

/-! ### The tools -/

section Tools

variable (N : Floats) (host : Services) (params stored : Json)

/-- `f(params, key, default)`. -/
def numberOf (key : String) (default : N.F) : N.F :=
  ((params.get? key).bind N.ofJson).getD default

/-- A number of a shape's, 0 where it has none. -/
def sideOf (sh : Json) (key : String) : N.F :=
  (N.ofJson (sh.atKey key)).getD (N.lit 0 0)

/-- Bounding box of a shape, or none for a connector, which has no box of its own. -/
def bounds (sh : Json) : Option (N.F × N.F × N.F × N.F) :=
  if kindOf sh = some "arrow" then none
  else some (sideOf N sh "x", sideOf N sh "y", sideOf N sh "w", sideOf N sh "h")

def listTool : Reply × Json :=
  let doc := load stored
  let frames := (framesOf doc).map fun fr =>
    Json.obj [("id", fr.atKey "id"), ("name", fr.atKey "name")]
  let shapes := (shapesOf doc).map fun sh => Json.obj
    [("fill", sh.atKey "fill"), ("frame", sh.atKey "frame"), ("id", sh.atKey "id"),
      ("kind", sh.atKey "kind"), ("text", sh.atKey "text")]
  (.ok (.obj [("frames", .arr frames), ("shapes", .arr shapes), ("title", doc.atKey "title")])
    s!"{frames.length} frame(s), {shapes.length} shape(s)", stored)

/-- The shape `canvas.add_shape` and `canvas.add_sticky` make. -/
def newShape (doc : Json) (kind id : String) : Json :=
  let count := (shapesOf doc).length
  let sticky := kind = "sticky"
  let defaultX := N.add (N.lit 40 0) (N.mul (N.lit (count % 6) 0) (N.lit 150 0))
  let defaultY := N.add (N.lit 40 0) (N.mul (N.lit (count / 6) 0) (N.lit 130 0))
  .obj
    [("fill", .str (textOf params "fill" (if sticky then "yellow" else "grey"))),
      ("frame", params.atKey "frame"),
      ("h", N.toJson (numberOf N params "h" (if sticky then N.lit 110 0 else N.lit 90 0))),
      ("id", .str id), ("kind", .str kind), ("locked", .bool false),
      ("text", .str (textOf params "text" "")),
      ("w", N.toJson (numberOf N params "w" (if sticky then N.lit 130 0 else N.lit 160 0))),
      ("x", N.toJson (numberOf N params "x" defaultX)),
      ("y", N.toJson (numberOf N params "y" defaultY)), ("z", .num (nextZ doc) 0)]

def addShape (kind : String) : Reply × Json :=
  let doc := load stored
  if !(["rect", "ellipse", "arrow", "sticky"].contains kind) then
    (.fail s!"`{kind}` is not a shape kind", stored)
  else
    let id := nextId doc "s" host.nowMs
    push stored doc (newShape N params doc kind id) fun doc =>
      host.save 0 stored doc (.ok (.obj [("id", .str id)]) s!"added 1 {kind}")

/-- One shape edited, the one an id names; `guarded`, where a locked one is refused. -/
def editOne (guarded : Bool) (id : String) (edit : Json → Json) (did : String) : Reply × Json :=
  let doc := load stored
  match shapeIndex doc id with
  | none => (.fail s!"no shape `{id}`", stored)
  | some i =>
    if guarded && locked ((shapesOf doc).getD i .null) then
      (.fail s!"`{id}` is locked; unlock it first", stored)
    else host.save 0 stored (withShapes doc ((shapesOf doc).modify i edit))
      (.ok (.obj [("id", .str id)]) did)

def move : Reply × Json :=
  editOne host stored true (textOf params "id" "")
    (fun sh =>
      let sh := sh.setKey "x" (N.toJson (numberOf N params "x" (sideOf N sh "x")))
      sh.setKey "y" (N.toJson (numberOf N params "y" (sideOf N sh "y"))))
    "moved 1 shape"

def resize : Reply × Json :=
  editOne host stored true (textOf params "id" "")
    (fun sh =>
      let sh := sh.setKey "w" (N.toJson (N.max (numberOf N params "w" (N.lit 160 0)) (N.lit 8 0)))
      sh.setKey "h" (N.toJson (N.max (numberOf N params "h" (N.lit 90 0)) (N.lit 8 0))))
    "resized 1 shape"

def setText : Reply × Json :=
  editOne host stored false (textOf params "id" "")
    (fun sh => sh.setKey "text" (.str (textOf params "text" ""))) "relabelled 1 shape"

def fills : List String :=
  ["red", "amber", "green", "blue", "yellow", "grey"]

def setFill : Reply × Json :=
  let fill := textOf params "fill" "grey"
  if !fills.contains fill then
    (.fail s!"`{fill}` is not one of red, amber, green, blue, yellow, grey", stored)
  else editOne host stored false (textOf params "id" "")
    (fun sh => sh.setKey "fill" (.str fill)) "recoloured 1 shape"

@[grind =]
def delete : Reply × Json :=
  let doc := load stored
  let id := textOf params "id" ""
  match shapeIndex doc id with
  | none => (.fail s!"no shape `{id}`", stored)
  | some i =>
    if locked ((shapesOf doc).getD i .null) then
      (.fail s!"`{id}` is locked; unlock it first", stored)
    else host.save 0 stored (withShapes doc ((shapesOf doc).eraseIdx i))
      (.ok (.obj [("id", .str id)]) "removed 1 shape")

/-- A connector. -/
def newArrow (doc : Json) (id fromId toId : String) : Json :=
  let zero := N.toJson (N.lit 0 0)
  .obj
    [("fill", .str "grey"), ("frame", .null), ("from", .str fromId), ("h", zero), ("id", .str id),
      ("kind", .str "arrow"), ("locked", .bool false), ("text", .str (textOf params "label" "")),
      ("to", .str toId), ("w", zero), ("x", zero), ("y", zero), ("z", .num (nextZ doc) 0)]

def connect : Reply × Json :=
  let doc := load stored
  let fromId := textOf params "from" ""
  let toId := textOf params "to" ""
  if (shapeIndex doc fromId).isNone then (.fail s!"no shape `{fromId}`", stored)
  else if (shapeIndex doc toId).isNone then (.fail s!"no shape `{toId}`", stored)
  else
    let id := nextId doc "a" host.nowMs
    push stored doc (newArrow N params doc id fromId toId) fun doc =>
      host.save 0 stored doc (.ok (.obj [("id", .str id)]) "connected 2 shapes")

def newFrame (count : Nat) (id : String) : Json :=
  let defaultX := N.add (N.lit 20 0) (N.mul (N.lit count 0) (N.lit 640 0))
  .obj
    [("h", N.toJson (numberOf N params "h" (N.lit 420 0))), ("id", .str id),
      ("name", .str (textOf params "name" "Frame")),
      ("w", N.toJson (numberOf N params "w" (N.lit 600 0))),
      ("x", N.toJson (numberOf N params "x" defaultX)),
      ("y", N.toJson (numberOf N params "y" (N.lit 20 0)))]

def addFrame : Reply × Json :=
  let doc := load stored
  let id := nextId doc "f" host.nowMs
  match (doc.atKey "frames").asArray with
  | none => (.trap, stored)
  | some frames =>
    host.save 0 stored
      (doc.setKey "frames" (.arr (frames ++ [newFrame N params frames.length id])))
      (.ok (.obj [("id", .str id)]) "added 1 frame")

def setTitle : Reply × Json :=
  let title := textOf params "title" "Board"
  host.save 0 stored ((load stored).setKey "title" (.str title))
    (.ok (.obj [("title", .str title)]) "retitled the board")

def select : Reply × Json :=
  let doc := load stored
  let ids := ((params.get? "ids").bind Json.asArray).getD []
  match (ids.filterMap Json.asStr).find? fun id => (shapeIndex doc id).isNone with
  | some id => (.fail s!"no shape `{id}`", stored)
  | none =>
    host.save 0 stored (doc.setKey "selection" (.arr ids))
      (.ok (.obj [("selected", .num ids.length 0)]) s!"selected {ids.length} shape(s)")

def zoom : Reply × Json :=
  let frame := (params.get? "frame").bind Json.asStr
  let shapes := (shapesOf (load stored)).filter fun sh =>
    match frame with
    | some f => (sh.atKey "frame").asStr = some f
    | none => true
  (.ok (.obj [("shapes", .arr shapes)]) s!"{shapes.length} shape(s) in full detail", stored)

def newLabel (doc : Json) (id text : String) : Json :=
  let size := N.min (N.max (numberOf N params "size" (N.lit 16 0)) (N.lit 8 0)) (N.lit 96 0)
  let width := N.mul (N.mul (N.lit text.length 0) size) (N.lit 55 (-2))
  .obj
    [("fill", .str "none"), ("frame", .null), ("h", N.toJson (N.mul size (N.lit 16 (-1)))),
      ("id", .str id), ("kind", .str "text"), ("locked", .bool false), ("size", N.toJson size),
      ("text", .str text), ("w", N.toJson (N.max width (N.lit 60 0))),
      ("x", N.toJson (numberOf N params "x" (N.lit 40 0))),
      ("y", N.toJson (numberOf N params "y" (N.lit 40 0))), ("z", .num (nextZ doc) 0)]

def addText : Reply × Json :=
  let doc := load stored
  let text := textOf params "text" ""
  if trim text = "" then (.fail "a text label needs some text", stored)
  else
    let id := nextId doc "t" host.nowMs
    push stored doc (newLabel N params doc id text) fun doc =>
      host.save 0 stored doc (.ok (.obj [("id", .str id)]) "added 1 text label")

/-- The copy of a shape, the `n`-th made. -/
def copyOf (doc sh : Json) (newId : String) (n : Nat) : Json :=
  let shift (sh : Json) (key : String) : Json :=
    sh.setKey key (N.toJson (N.add (sideOf N sh key) (N.lit 24 0)))
  let copy := shift (shift (sh.setKey "id" (.str newId)) "x") "y"
  (copy.setKey "z" (.num (i64 (nextZ doc + (n - 1 : Nat))) 0)).setKey "locked" (.bool false)

/-- The named shapes copied one after another, connectors left out. -/
def copyEach : List String → Json → List String → Except String (Json × List String)
  | [], doc, made => .ok (doc, made)
  | id :: rest, doc, made =>
    match shapeIndex doc id with
    | none => .error s!"no shape `{id}`"
    | some i =>
      let sh := (shapesOf doc).getD i .null
      if kindOf sh = some "arrow" then copyEach rest doc made
      else
        let newId := s!"{id}_{made.length + 1}"
        let copy := copyOf N doc sh newId (made.length + 1)
        copyEach rest (withShapes doc (shapesOf doc ++ [copy])) (made ++ [newId])

def duplicate : Reply × Json :=
  let ids := idsOf params
  if ids.isEmpty then (.fail "nothing to duplicate", stored)
  else match copyEach N ids (load stored) [] with
    | .error e => (.fail e, stored)
    | .ok (doc, made) =>
      if made.isEmpty then
        (.fail "nothing was duplicated (connectors cannot be copied on their own)", stored)
      else match host.docPut 0 with
        | .error e => (.fail e, stored)
        | .ok () =>
          let made' := Json.arr (made.map Json.str)
          let reply := Reply.ok (.obj [("ids", made')]) s!"duplicated {made.length} shape(s)"
          -- whether the selection is written is not asked
          match host.docPut 1 with
          | .error _ => (reply, doc)
          | .ok () => (reply, doc.setKey "selection" made')

/-- Edits that a locked shape refuses, saved where none was refused. -/
def edited (result : Except String (Nat × Json)) (reply : Nat → Reply) : Reply × Json :=
  match result with
  | .error e => (.fail e, stored)
  | .ok (n, doc) => host.save 0 stored doc (reply n)

/-- The ids a tool answers with. -/
def idsJson (ids : List String) : Json :=
  .obj [("ids", .arr (ids.map Json.str))]

@[grind =]
def order : Reply × Json :=
  let doc := load stored
  let ids := idsOf params
  let toward := textOf params "to" "front"
  if ids.isEmpty then (.fail "nothing to reorder", stored)
  else
    let top := nextZ doc
    let bottom := (((shapesOf doc).filterMap fun sh => (sh.atKey "z").asI64).min?).getD 0
    edited host stored
      (editEach
        (fun sh =>
          let z := ((sh.atKey "z").asI64).getD 0
          sh.setKey "z" (.num (match toward with
            | "front" => top
            | "back" => i64 (bottom - 1)
            | "forward" => i64 (z + 1)
            | _ => i64 (z - 1)) 0))
        ids doc)
      fun n => .ok (idsJson ids) s!"moved {n} shape(s) {toward}"

/-- The named shapes' locks set, one after another. -/
def lockEach (want : Bool) : List String → Json → Except String Json
  | [], doc => .ok doc
  | id :: rest, doc =>
    match shapeIndex doc id with
    | none => .error s!"no shape `{id}`"
    | some i =>
      lockEach want rest
        (withShapes doc ((shapesOf doc).modify i fun sh => sh.setKey "locked" (.bool want)))

def lock : Reply × Json :=
  let ids := idsOf params
  let want := ((params.get? "locked").bind Json.asBool).getD true
  if ids.isEmpty then (.fail "nothing to lock", stored)
  else match lockEach want ids (load stored) with
    | .error e => (.fail e, stored)
    | .ok doc =>
      let did := if want then "locked" else "unlocked"
      host.save 0 stored doc (.ok (idsJson ids) s!"{did} {ids.length} shape(s)")

def align : Reply × Json :=
  let doc := load stored
  let ids := idsOf params
  let edge := textOf params "edge" "left"
  if ids.length < 2 then (.fail "aligning needs at least two shapes", stored)
  else
    let boxes := (ids.filterMap (shapeIndex doc)).filterMap fun i =>
      bounds N ((shapesOf doc).getD i .null)
    if boxes.length < 2 then
      (.fail "aligning needs at least two shapes that have a box", stored)
    else
      let left := (boxes.map fun b => b.1).foldl N.min N.largest
      let right := (boxes.map fun b => N.add b.1 b.2.2.1).foldl N.max N.smallest
      let top := (boxes.map fun b => b.2.1).foldl N.min N.largest
      let bottom := (boxes.map fun b => N.add b.2.1 b.2.2.2).foldl N.max N.smallest
      let half (a b : N.F) : N.F := N.div (N.add a b) (N.lit 2 0)
      edited host stored
        (editEach
          (fun sh => match bounds N sh with
            | none => sh
            | some (_, _, w, h) => match edge with
              | "left" => sh.setKey "x" (N.toJson left)
              | "right" => sh.setKey "x" (N.toJson (N.sub right w))
              | "top" => sh.setKey "y" (N.toJson top)
              | "bottom" => sh.setKey "y" (N.toJson (N.sub bottom h))
              | "centre_x" =>
                sh.setKey "x" (N.toJson (N.sub (half left right) (N.div w (N.lit 2 0))))
              | "centre_y" =>
                sh.setKey "y" (N.toJson (N.sub (half top bottom) (N.div h (N.lit 2 0))))
              | _ => sh)
          ids doc)
        fun n => .ok (idsJson ids) s!"aligned {n} shape(s) {edge}"

/-- Those of the named shapes that have a box, with where they begin and how long they are. -/
def placedOf (doc : Json) (axis : String) : List String → Except String (List (String × N.F × N.F))
  | [] => .ok []
  | id :: rest =>
    match shapeIndex doc id with
    | none => .error s!"no shape `{id}`"
    | some i =>
      match placedOf doc axis rest with
      | .error e => .error e
      | .ok placed => match bounds N ((shapesOf doc).getD i .null) with
        | none => .ok placed
        | some (x, y, w, h) =>
          .ok ((if axis = "x" then (id, x, w) else (id, y, h)) :: placed)

/-- The placed shapes set one after another, locked ones left where they are. -/
def spread (axis : String) (gap : N.F) :
    List (String × N.F × N.F) → N.F → Nat → Json → Nat × Json
  | [], _, moved, doc => (moved, doc)
  | (id, _, size) :: rest, cursor, moved, doc =>
    match shapeIndex doc id with
    | none => spread axis gap rest cursor moved doc
    | some i =>
      let next := N.add cursor (N.add size gap)
      if locked ((shapesOf doc).getD i .null) then spread axis gap rest next moved doc
      else
        let key := if axis = "x" then "x" else "y"
        spread axis gap rest next (moved + 1)
          (withShapes doc ((shapesOf doc).modify i fun sh =>
            sh.setKey key (N.toJson (N.round cursor))))

def distribute : Reply × Json :=
  let doc := load stored
  let ids := idsOf params
  let axis := textOf params "axis" "x"
  if ids.length < 3 then (.fail "distributing needs at least three shapes", stored)
  else match placedOf N doc axis ids with
    | .error e => (.fail e, stored)
    | .ok placed =>
      if placed.length < 3 then
        (.fail "distributing needs at least three shapes that have a box", stored)
      else
        let placed := placed.mergeSort fun a b => !N.less b.2.1 a.2.1
        match placed.head?, placed.getLast? with
        | some first, some last =>
          let span := N.sub (N.add last.2.1 last.2.2) first.2.1
          let total := (placed.map fun p => p.2.2).foldl N.add (N.lit 0 0)
          let gap := N.div (N.sub span total) (N.lit (placed.length - 1 : Nat) 0)
          let r := spread N axis gap placed first.2.1 0 doc
          host.save 0 stored r.2
            (.ok (idsJson ids) s!"spaced {r.1} shape(s) evenly along {axis}")
        | _, _ => (.trap, stored)

/-- The shapes an outline lists: those with text, of one frame where one is named. -/
def outlineItems (doc : Json) (frame : Option String) : List Json :=
  ((((shapesOf doc).filter fun sh =>
      kindOf sh ≠ some "arrow" ∧ kindOf sh ≠ some "ink").filter fun sh =>
      trim (((sh.atKey "text").asStr).getD "") ≠ "").filter fun sh =>
        match frame with
        | some f => (sh.atKey "frame").asStr = some f
        | none => true).map fun sh => Json.obj
      [("fill", sh.atKey "fill"), ("frame", sh.atKey "frame"), ("id", sh.atKey "id"),
        ("kind", sh.atKey "kind"), ("text", sh.atKey "text")]

def exportOutline : Reply × Json :=
  let doc := load stored
  let items := outlineItems doc ((params.get? "frame").bind Json.asStr)
  if items.isEmpty then (.fail "nothing on the board has text to export", stored)
  else
    let title := ((doc.atKey "title").asStr).getD "Board"
    let summary := s!"{items.length} item(s) from board \"{title}\""
    host.save 0 stored
      (doc.setKey "outline" (.obj
        [("items", .arr items), ("kind", .str "outline.v1"), ("title", .str title)]))
      (.ok (.obj
        [("artifact", .obj [("kind", .str "outline.v1"), ("summary", .str summary)]),
          ("items", .num items.length 0)])
        s!"exported {items.length} item(s) as an outline")

end Tools

/-- `Whiteboard::call`: the reply, and the document it leaves. -/
@[grind =]
def call (N : Floats) (c : ToolCall) (stored : Json) : Reply × Json :=
  match c.name with
  | "canvas.list" => listTool stored
  | "canvas.add_shape" => addShape N c.host c.params stored (textOf c.params "kind" "rect")
  | "canvas.add_sticky" => addShape N c.host c.params stored "sticky"
  | "canvas.move" => move N c.host c.params stored
  | "canvas.resize" => resize N c.host c.params stored
  | "canvas.set_text" => setText c.host c.params stored
  | "canvas.set_fill" => setFill c.host c.params stored
  | "canvas.delete" => delete c.host c.params stored
  | "canvas.connect" => connect N c.host c.params stored
  | "canvas.add_frame" => addFrame N c.host c.params stored
  | "canvas.set_title" => setTitle c.host c.params stored
  | "canvas.select" => select c.host c.params stored
  | "canvas.zoom" => zoom c.params stored
  | "canvas.add_text" => addText N c.host c.params stored
  | "canvas.duplicate" => duplicate N c.host c.params stored
  | "canvas.order" => order c.host c.params stored
  | "canvas.lock" => lock c.host c.params stored
  | "canvas.align" => align N c.host c.params stored
  | "canvas.distribute" => distribute N c.host c.params stored
  | "canvas.export_outline" => exportOutline c.host c.params stored
  | other => (.fail s!"`{other}` is not a whiteboard tool", stored)

end Whiteboard

end LocalSpace
