import LocalSpace.Canvas

/-!
# The entries that the replica writes

`replica.ts` and the canvas's model: a node is written as a new entry (`shapeOf`, `frameOf`) or over
the one with its id, field by field (`writeShape`, `writeFrame`), and read back by `plain` and
`fromDoc`. The Automerge document holds texts of two kinds and pairs of numbers as lists.
-/

namespace LocalSpace

namespace Canvas

/-- A text of the document: Automerge's immutable one, or one that is edited letter by letter. -/
structure Str where
  val : String
  immutable : Bool

def raw (s : String) : Str :=
  ⟨s, true⟩

/-! ### Fields -/

/-- A text is written where it is not the same. -/
def writeStr (v : String) (s : Str) : Str :=
  if s.val = v then s else raw v

def writeText (v : String) (s : Option Str) : Option Str :=
  if s.map Str.val = some v then s else some (raw v)

/-- An id, or null: one that is not the same is written, and an empty one as null. -/
def writeRef (v : Option String) (s : Option Str) : Option Str :=
  if s.map Str.val = v then s else (truthy v).map raw

/-- The first two numbers of a list. -/
def pairOf : List ℚ → Option Point
  | x :: y :: _ => some (x, y)
  | _ => none

/-- An end of an arrow, as `plain` reads it: of two numbers. -/
def endOf : Option (List ℚ) → Option Point
  | some [x, y] => some (x, y)
  | _ => none

/-- An end is written where its first two numbers differ. -/
def writeEnd (v : Option Point) (s : Option (List ℚ)) : Option (List ℚ) :=
  v.bind fun p => if s.bind pairOf = some p then s else some [p.1, p.2]

def writePoints (pts : List Point) (s : Option (List (List ℚ))) : Option (List (List ℚ)) :=
  if (s.getD []).map pairOf = pts.map some then s else some (pts.map fun p => [p.1, p.2])

section Fields

variable {v : Option String} {s : Option Str} {p : Option Point} {a : Option (List ℚ)}
  {pts : List Point} {l : Option (List (List ℚ))} {t : String}

@[simp]
theorem val_writeStr (r : Str) : (writeStr t r).val = t := by
  rw [writeStr]
  split
  · next heq => exact heq
  · rfl

@[simp]
theorem val_writeText : (writeText t s).map Str.val = some t := by
  rw [writeText]
  split
  · next heq => exact heq
  · rfl

@[simp]
theorem writeStr_self {r : Str} (h : r.val = t) : writeStr t r = r :=
  if_pos h

@[simp]
theorem writeText_self (h : s.map Str.val = some t) : writeText t s = s :=
  if_pos h

@[simp]
theorem writeStr_raw (t : String) : writeStr t (raw t) = raw t :=
  if_pos rfl

@[simp]
theorem writeText_raw (t : String) : writeText t (some (raw t)) = some (raw t) :=
  if_pos rfl

theorem map_val_raw : ((truthy v).map raw).map Str.val = truthy v := by
  cases truthy v with
  | none => rfl
  | some t => rfl

/-- What is written of an id is read, where it is not empty. -/
theorem val_writeRef : (writeRef v s).map Str.val = v ↔ (v = some "" → s.map Str.val = some "") := by
  rw [writeRef]
  split
  · next heq => exact ⟨fun _ hv => heq.trans hv, fun _ => heq⟩
  · next hne =>
    rw [map_val_raw]
    constructor
    · rintro htruthy rfl
      exact nomatch htruthy
    · exact fun h => truthy_of fun hv => hne ((h hv).trans hv.symm)

/-- A new entry's ids are as if written over none. -/
theorem writeRef_none : writeRef v none = (truthy v).map raw := by
  cases v with
  | none => rfl
  | some v => rfl

theorem writeRef_writeRef : writeRef v (writeRef v s) = writeRef v s := by
  by_cases h : s.map Str.val = v
  · rw [writeRef, writeRef, if_pos h, if_pos h]
  · have hwritten : writeRef v s = (truthy v).map raw := if_neg h
    rw [hwritten, writeRef]
    split
    · rfl
    · rfl

/-- A list of numbers that begins with a point and goes on. -/
def Overlong (p : Point) (a : Option (List ℚ)) : Prop :=
  ∃ z rest, a = some (p.1 :: p.2 :: z :: rest)

/-- What is written of an end is read, unless what stood there begins with it and goes on. -/
theorem endOf_writeEnd : endOf (writeEnd p a) = p ↔ ∀ q, p = some q → ¬Overlong q a := by
  cases p with
  | none => exact ⟨fun _ _ h => (nomatch h), fun _ => rfl⟩
  | some q =>
    rw [writeEnd, Option.bind_some]
    split
    · next hsame =>
      obtain ⟨l, rfl, hl⟩ := Option.bind_eq_some_iff.mp hsame
      match l, hl with
      | [x, y], hl =>
        cases hl
        refine ⟨fun _ q hq => ?_, fun _ => rfl⟩
        cases hq
        rintro ⟨z, rest, heq⟩
        exact nomatch heq
      | x :: y :: z :: rest, hl =>
        cases hl
        exact ⟨fun h => (nomatch h), fun h => absurd ⟨z, rest, rfl⟩ (h _ rfl)⟩
    · next hne =>
      refine ⟨fun _ q' hq => ?_, fun _ => rfl⟩
      cases hq
      rintro ⟨z, rest, rfl⟩
      exact hne rfl

theorem writeEnd_none : writeEnd p none = p.map fun q => [q.1, q.2] := by
  cases p with
  | none => rfl
  | some q => rfl

theorem writeEnd_writeEnd : writeEnd p (writeEnd p a) = writeEnd p a := by
  cases p with
  | none => rfl
  | some q =>
    by_cases h : a.bind pairOf = some q
    · have hkept : writeEnd (some q) a = a := if_pos h
      rw [hkept, hkept]
    · have hwritten : writeEnd (some q) a = some [q.1, q.2] := if_neg h
      rw [hwritten]
      exact if_pos rfl

theorem filterMap_pairOf {pts : List Point} {l : List (List ℚ)} (h : l.map pairOf = pts.map some) :
    l.filterMap pairOf = pts := by
  have hid := congrArg (List.filterMap id) h
  rw [List.filterMap_map, List.filterMap_map] at hid
  exact hid.trans List.filterMap_some

/-- What is written of a stroke is read. -/
theorem points_writePoints : ((writePoints pts l).map (·.filterMap pairOf)).getD [] = pts := by
  rw [writePoints]
  split
  · next heq =>
    have hread := filterMap_pairOf heq
    cases l with
    | none => exact hread
    | some l => exact hread
  · rw [Option.map_some, Option.getD_some]
    exact filterMap_pairOf (by rw [List.map_map]; rfl)

theorem writePoints_writePoints : writePoints pts (writePoints pts l) = writePoints pts l := by
  by_cases h : (l.getD []).map pairOf = pts.map some
  · rw [writePoints, writePoints, if_pos h, if_pos h]
  · have hwritten : writePoints pts l = some (pts.map fun p => [p.1, p.2]) := if_neg h
    rw [hwritten, writePoints, if_pos]
    rw [Option.getD_some, List.map_map]
    rfl

end Fields

/-! ### Entries -/

namespace Am

/-- `AmShape`. -/
structure Shape where
  id : Str
  kind : Str
  x : ℚ
  y : ℚ
  w : ℚ
  h : ℚ
  fill : Option Str
  text : Option Str
  frame : Option Str
  z : Option ℚ
  locked : Option Bool
  size : Option ℚ
  fromId : Option Str
  toId : Option Str
  startAt : Option (List ℚ)
  endAt : Option (List ℚ)
  points : Option (List (List ℚ))

/-- `AmFrame`. -/
structure Frame where
  id : Str
  name : Option Str
  x : ℚ
  y : ℚ
  w : ℚ
  h : ℚ

def Shape.key (s : Shape) : String :=
  s.id.val

def Frame.key (f : Frame) : String :=
  f.id.val

/-- `AmBoard`. -/
structure Board where
  title : Option Str
  shapes : Option (List Shape)
  frames : Option (List Frame)
  selection : Option (List Str)

def plainFrame (f : Frame) : Canvas.Frame :=
  ⟨f.id.val, f.name.map Str.val, f.x, f.y, f.w, f.h⟩

def plainShape (s : Shape) : Canvas.Shape where
  id := s.id.val
  kind := s.kind.val
  x := s.x
  y := s.y
  w := s.w
  h := s.h
  fill := s.fill.map Str.val
  text := s.text.map Str.val
  frame := s.frame.map Str.val
  z := some (s.z.getD 0)
  locked := some (s.locked = some true)
  size := s.size
  fromId := s.fromId.map Str.val
  toId := s.toId.map Str.val
  startAt := endOf s.startAt
  endAt := endOf s.endAt
  points := s.points.map fun l => l.filterMap pairOf

/-- `plain`: the document as the canvas model reads it. -/
@[grind =]
def plain (doc : Board) : Canvas.Board where
  frames := (doc.frames.getD []).map plainFrame
  shapes := (doc.shapes.getD []).map plainShape
  selection := (doc.selection.getD []).map Str.val

def frameOf (n : Node) : Frame :=
  ⟨raw n.id, some (raw (n.name.getD "Frame")), n.x, n.y, n.w, n.h⟩

@[grind =]
def writeFrame (n : Node) (f : Frame) : Frame :=
  { f with name := writeText (n.name.getD "Frame") f.name, x := n.x, y := n.y, w := n.w, h := n.h }

@[grind =]
def shapeOf (n : Node) : Shape where
  id := raw n.id
  kind := raw n.kind.label
  x := n.x
  y := n.y
  w := n.w
  h := n.h
  fill := some (raw n.fill.label)
  text := some (raw n.text)
  frame := (truthy n.frame).map raw
  z := some n.z
  locked := some n.locked
  size := if n.kind = .text then some (n.size.getD 16) else none
  fromId := if n.kind = .arrow then (truthy n.fromId).map raw else none
  toId := if n.kind = .arrow then (truthy n.toId).map raw else none
  startAt := if n.kind = .arrow then n.startAt.map fun p => [p.1, p.2] else none
  endAt := if n.kind = .arrow then n.endAt.map fun p => [p.1, p.2] else none
  points := if n.kind = .ink then some (n.points.map fun p => [p.1, p.2]) else none

/-- Only what differs is written. -/
@[grind =]
def writeShape (n : Node) (s : Shape) : Shape :=
  { s with
    kind := writeStr n.kind.label s.kind
    x := n.x
    y := n.y
    w := n.w
    h := n.h
    z := some n.z
    locked := some n.locked
    fill := writeText n.fill.label s.fill
    text := writeText n.text s.text
    frame := writeRef n.frame s.frame
    size := if n.kind = .text then some (n.size.getD 16) else s.size
    fromId := if n.kind = .arrow then writeRef n.fromId s.fromId else s.fromId
    toId := if n.kind = .arrow then writeRef n.toId s.toId else s.toId
    startAt := if n.kind = .arrow then writeEnd n.startAt s.startAt else s.startAt
    endAt := if n.kind = .arrow then writeEnd n.endAt s.endAt else s.endAt
    points := if n.kind = .ink then writePoints n.points s.points else s.points }

namespace Board

@[grind =]
def frameList (doc : Board) : List Frame :=
  doc.frames.getD []

@[grind =]
def shapeList (doc : Board) : List Shape :=
  doc.shapes.getD []

/-- A node written into the document, as `Replica.local` does. -/
@[grind =]
def put (doc : Board) (n : Node) : Board :=
  if n.kind = .frame then
    { doc with
      shapes := some doc.shapeList
      frames := some (upsert Frame.key n.id (writeFrame n) (frameOf n) doc.frameList) }
  else
    { doc with
      shapes := some (upsert Shape.key n.id (writeShape n) (shapeOf n) doc.shapeList)
      frames := some doc.frameList }

/-- The node that is read at the entry a node is written to. -/
@[grind =]
def entry (doc : Board) (n : Node) : Option Node :=
  if n.kind = .frame then
    (lookup Frame.key doc.frameList n.id).map fun f => frameNode (plainFrame f)
  else (lookup Shape.key doc.shapeList n.id).bind fun s => nodeOf (plainShape s)

/-- The document without the entry a node is written to. -/
def others (doc : Board) (n : Node) : Board :=
  if n.kind = .frame then
    { doc with
      shapes := some doc.shapeList
      frames := some (removeById Frame.key n.id doc.frameList) }
  else
    { doc with
      shapes := some (removeById Shape.key n.id doc.shapeList)
      frames := some doc.frameList }

end Board

/-- What the editor writes is what it reads: the node is read back, every other entry is as it was,
and writing the node again changes nothing. -/
structure Faithful (doc : Board) (n : Node) : Prop where
  read : ∃ m, (doc.put n).entry n = some m ∧ m ∈ fromDoc (plain (doc.put n)) ∧ sameNode m n
  others : (doc.put n).others n = doc.others n
  again : (doc.put n).put n = doc.put n

/-- What a node that is no frame may not ask of the entry it is written over: to keep an empty id
that is not there, or an end that begins a longer list. -/
structure Room (n : Node) (s : Option Shape) : Prop where
  frame : n.frame = some "" → (s.bind Shape.frame).map Str.val = some ""
  fromId : n.kind = .arrow → n.fromId = some "" → (s.bind Shape.fromId).map Str.val = some ""
  toId : n.kind = .arrow → n.toId = some "" → (s.bind Shape.toId).map Str.val = some ""
  startAt : n.kind = .arrow → ∀ p, n.startAt = some p → ¬Overlong p (s.bind Shape.startAt)
  endAt : n.kind = .arrow → ∀ p, n.endAt = some p → ¬Overlong p (s.bind Shape.endAt)

/-- An entry as a node leaves it, new or over another. -/
structure Written (n : Node) (s : Option Shape) (e : Shape) : Prop where
  id : e.id.val = n.id
  kind : e.kind.val = n.kind.label
  box : e.x = n.x ∧ e.y = n.y ∧ e.w = n.w ∧ e.h = n.h
  look : e.fill.map Str.val = some n.fill.label ∧ e.text.map Str.val = some n.text
  z : e.z = some n.z
  locked : e.locked = some n.locked
  frame : e.frame = writeRef n.frame (s.bind Shape.frame)
  size : n.kind = .text → e.size = some (n.size.getD 16)
  ends : n.kind = .arrow → e.fromId = writeRef n.fromId (s.bind Shape.fromId) ∧
    e.toId = writeRef n.toId (s.bind Shape.toId) ∧
    e.startAt = writeEnd n.startAt (s.bind Shape.startAt) ∧
    e.endAt = writeEnd n.endAt (s.bind Shape.endAt)
  points : n.kind = .ink → (e.points.map (·.filterMap pairOf)).getD [] = n.points

section Entries

variable {n : Node} {s : Option Shape} {e : Shape} {doc : Board}

theorem written_shapeOf (n : Node) : Written n none (shapeOf n) := by
  refine ⟨rfl, rfl, ⟨rfl, rfl, rfl, rfl⟩, ⟨rfl, rfl⟩, rfl, rfl, writeRef_none.symm,
    fun ht => if_pos ht, fun ha => ⟨?_, ?_, ?_, ?_⟩, fun hi => ?_⟩
  · exact (if_pos ha).trans writeRef_none.symm
  · exact (if_pos ha).trans writeRef_none.symm
  · exact (if_pos ha).trans writeEnd_none.symm
  · exact (if_pos ha).trans writeEnd_none.symm
  · rw [shapeOf, if_pos hi, Option.map_some, Option.getD_some]
    exact filterMap_pairOf (by rw [List.map_map]; rfl)

theorem written_writeShape (r : Shape) (hid : r.key = n.id) :
    Written n (some r) (writeShape n r) :=
  ⟨hid, val_writeStr _, ⟨rfl, rfl, rfl, rfl⟩, ⟨val_writeText, val_writeText⟩, rfl, rfl, rfl,
    fun ht => if_pos ht, fun ha => ⟨if_pos ha, if_pos ha, if_pos ha, if_pos ha⟩, fun hi => by
      rw [writeShape, if_pos hi]
      exact points_writePoints⟩

/-- A written entry is read as the node, exactly where the document has places for its fields and
the entry has room for its ids and ends. -/
theorem Written.read (h : Written n s e) (hk : n.kind ≠ .frame) :
    nodeOf (plainShape e) = some n ↔ n.Fits ∧ Room n s := by
  constructor
  · intro hread
    refine ⟨fits_of_nodeOf hread, ?_⟩
    obtain ⟨kind, hkind, hnode⟩ := Option.map_eq_some_iff.mp hread
    have hlabel : kind = n.kind := congrArg Node.kind hnode
    subst hlabel
    have hframe : e.frame.map Str.val = n.frame := congrArg Node.frame hnode
    rw [h.frame] at hframe
    refine ⟨val_writeRef.mp hframe, fun ha => ?_, fun ha => ?_, fun ha => ?_, fun ha => ?_⟩
    · have hfrom : (if n.kind = .arrow then e.fromId.map Str.val else none) = n.fromId :=
        congrArg Node.fromId hnode
      rw [if_pos ha, (h.ends ha).1] at hfrom
      exact val_writeRef.mp hfrom
    · have hto : (if n.kind = .arrow then e.toId.map Str.val else none) = n.toId :=
        congrArg Node.toId hnode
      rw [if_pos ha, (h.ends ha).2.1] at hto
      exact val_writeRef.mp hto
    · have hstart : (if n.kind = .arrow then endOf e.startAt else none) = n.startAt :=
        congrArg Node.startAt hnode
      rw [if_pos ha, (h.ends ha).2.2.1] at hstart
      exact endOf_writeEnd.mp hstart
    · have hend : (if n.kind = .arrow then endOf e.endAt else none) = n.endAt :=
        congrArg Node.endAt hnode
      rw [if_pos ha, (h.ends ha).2.2.2] at hend
      exact endOf_writeEnd.mp hend
  · rintro ⟨hfits, hroom⟩
    refine nodeOf_of hfits hk h.id h.kind h.box ⟨h.look.1, h.look.2, ?_, ?_⟩ ?_ h.size (fun ha => ?_)
      fun hi => ?_
    · exact congrArg (fun z => some (z.getD 0)) h.z
    · dsimp only [plainShape]
      rw [h.locked]
      simp
    · dsimp only [plainShape]
      rw [h.frame]
      exact val_writeRef.mpr hroom.frame
    · obtain ⟨hfrom, hto, hstart, hend⟩ := h.ends ha
      dsimp only [plainShape]
      rw [hfrom, hto, hstart, hend]
      exact ⟨val_writeRef.mpr (hroom.fromId ha), val_writeRef.mpr (hroom.toId ha),
        endOf_writeEnd.mpr (hroom.startAt ha), endOf_writeEnd.mpr (hroom.endAt ha)⟩
    · exact h.points hi

theorem Written.elim (hs : ∀ r ∈ s, r.key = n.id) :
    Written n s (s.elim (shapeOf n) (writeShape n)) := by
  cases s with
  | none => exact written_shapeOf n
  | some r => exact written_writeShape r (hs r rfl)

/-- A frame's entry is read as the frame, exactly where the document has places for its fields. -/
theorem read_frame {f : Frame} (hk : n.kind = .frame)
    (hf : plainFrame f = ⟨n.id, some (n.name.getD "Frame"), n.x, n.y, n.w, n.h⟩) :
    frameNode (plainFrame f) = n ↔ n.Fits := by
  constructor
  · intro hread
    exact hread ▸ (proper_frameNode (plainFrame f)).fits
  · intro hfits
    exact frameNode_of hfits hk (by rw [hf]) (by rw [hf])

theorem plain_frameOf (n : Node) :
    plainFrame (frameOf n) = ⟨n.id, some (n.name.getD "Frame"), n.x, n.y, n.w, n.h⟩ :=
  rfl

theorem plain_writeFrame {f : Frame} (hid : f.key = n.id) :
    plainFrame (writeFrame n f) = ⟨n.id, some (n.name.getD "Frame"), n.x, n.y, n.w, n.h⟩ := by
  rw [plainFrame, writeFrame, ← hid, val_writeText]
  rfl

theorem writeFrame_writeFrame (f : Frame) : writeFrame n (writeFrame n f) = writeFrame n f := by
  rw [writeFrame, writeFrame, writeText_self val_writeText]

theorem writeFrame_frameOf (n : Node) : writeFrame n (frameOf n) = frameOf n := by
  rw [writeFrame, frameOf, writeText_raw]

/-- Writing a node over what it wrote changes nothing. -/
theorem writeShape_writeShape (r : Shape) : writeShape n (writeShape n r) = writeShape n r := by
  have hif : ∀ {α : Type} {p : Prop} [Decidable p] (f : α → α) (a : α), f (f a) = f a →
      (if p then f (if p then f a else a) else if p then f a else a) = if p then f a else a := by
    intro α p _ f a hf
    split
    · exact hf
    · rfl
  rw [writeShape, writeShape]
  dsimp only
  rw [writeStr_self (val_writeStr _), writeText_self val_writeText, writeText_self val_writeText,
    writeRef_writeRef, hif _ _ writeRef_writeRef, hif _ _ writeRef_writeRef,
    hif _ _ writeEnd_writeEnd, hif _ _ writeEnd_writeEnd, hif _ _ writePoints_writePoints,
    hif (fun _ => some (n.size.getD 16)) _ rfl]

theorem writeShape_shapeOf (n : Node) : writeShape n (shapeOf n) = shapeOf n := by
  have hif : ∀ {α : Type} {p : Prop} [Decidable p] (f : α → α) (a b : α), f a = a →
      (if p then f (if p then a else b) else if p then a else b) = if p then a else b := by
    intro α p _ f a b hf
    split
    · exact hf
    · rfl
  have href : ∀ v, writeRef v ((truthy v).map raw) = (truthy v).map raw := by
    intro v
    rw [← writeRef_none, writeRef_writeRef]
  have hend : ∀ p : Option Point, writeEnd p (p.map fun q => [q.1, q.2]) =
      p.map fun q => [q.1, q.2] := by
    intro p
    rw [← writeEnd_none, writeEnd_writeEnd]
  have hpoints : writePoints n.points (some (n.points.map fun p => [p.1, p.2])) =
      some (n.points.map fun p => [p.1, p.2]) :=
    if_pos (by rw [Option.getD_some, List.map_map]; rfl)
  rw [writeShape, shapeOf]
  dsimp only
  rw [writeStr_raw, writeText_raw, writeText_raw, href, hif _ _ _ (href _),
    hif _ _ _ (href _), hif _ _ _ (hend _), hif _ _ _ (hend _), hif _ _ _ hpoints,
    hif (fun _ => some (n.size.getD 16)) _ _ rfl]

end Entries

section Lists

variable {α : Type} {key : α → String} {id : String} {write : α → α} {new : α} {l : List α}

theorem upsert_upsert (hnew : key new = id) (hwrite : ∀ a, key a = id → key (write a) = id)
    (hsame : ∀ a, write (write a) = write a) (hfresh : write new = new) :
    upsert key id write new (upsert key id write new l) = upsert key id write new l := by
  induction l with
  | nil => rw [upsert, upsert, if_pos hnew, hfresh]
  | cons a l ih =>
    by_cases ha : key a = id
    · rw [upsert, if_pos ha, upsert, if_pos (hwrite a ha), hsame]
    · rw [upsert, if_neg ha, upsert, if_neg ha, ih]

theorem removeById_upsert (hnew : key new = id) (hwrite : ∀ a, key a = id → key (write a) = id) :
    removeById key id (upsert key id write new l) = removeById key id l := by
  induction l with
  | nil => exact List.eraseP_cons_of_pos (decide_eq_true hnew)
  | cons a l ih =>
    by_cases ha : key a = id
    · have hwritten : removeById key id (write a :: l) = l :=
        List.eraseP_cons_of_pos (decide_eq_true (hwrite a ha))
      have hleft : removeById key id (a :: l) = l :=
        List.eraseP_cons_of_pos (decide_eq_true ha)
      rw [upsert, if_pos ha, hwritten, hleft]
    · rw [upsert, if_neg ha, removeById, removeById,
        List.eraseP_cons_of_neg (by simpa using ha), List.eraseP_cons_of_neg (by simpa using ha)]
      exact congrArg _ ih

end Lists

section Writing

variable {n : Node} {doc : Board}

theorem lookup_id {α : Type} {key : α → String} {id : String} {l : List α} :
    ∀ a ∈ lookup key l id, key a = id :=
  fun _ ha => (mem_of_lookup ha).2

/-- The key of what is written over a frame or a shape. -/
theorem id_writeFrame (f : Frame) (hf : f.key = n.id) : (writeFrame n f).key = n.id :=
  hf

theorem id_writeShape (s : Shape) (hs : s.key = n.id) : (writeShape n s).key = n.id :=
  hs

theorem id_frameOf : (frameOf n).key = n.id :=
  rfl

theorem id_shapeOf : (shapeOf n).key = n.id :=
  rfl

theorem put_others (doc : Board) (n : Node) : (doc.put n).others n = doc.others n := by
  by_cases hk : n.kind = .frame
  · rw [Board.put, if_pos hk, Board.others, if_pos hk, Board.others, if_pos hk]
    dsimp only [Board.frameList, Board.shapeList]
    rw [Option.getD_some, Option.getD_some, removeById_upsert id_frameOf id_writeFrame]
  · rw [Board.put, if_neg hk, Board.others, if_neg hk, Board.others, if_neg hk]
    dsimp only [Board.frameList, Board.shapeList]
    rw [Option.getD_some, Option.getD_some, removeById_upsert id_shapeOf id_writeShape]

theorem put_put (doc : Board) (n : Node) : (doc.put n).put n = doc.put n := by
  by_cases hk : n.kind = .frame
  · rw [Board.put, if_pos hk, Board.put, if_pos hk]
    dsimp only [Board.frameList, Board.shapeList]
    rw [Option.getD_some, Option.getD_some, upsert_upsert id_frameOf id_writeFrame
      writeFrame_writeFrame (writeFrame_frameOf n)]
  · rw [Board.put, if_neg hk, Board.put, if_neg hk]
    dsimp only [Board.frameList, Board.shapeList]
    rw [Option.getD_some, Option.getD_some, upsert_upsert id_shapeOf id_writeShape
      writeShape_writeShape (writeShape_shapeOf n)]

theorem mem_of_entry {m : Node} (h : doc.entry n = some m) : m ∈ fromDoc (plain doc) := by
  rw [Board.entry] at h
  split at h
  · obtain ⟨f, hf, rfl⟩ := Option.map_eq_some_iff.mp h
    exact List.mem_append_left _ (List.mem_map_of_mem (List.mem_map_of_mem (mem_of_lookup hf).1))
  · obtain ⟨s, hs, hread⟩ := Option.bind_eq_some_iff.mp h
    exact List.mem_append_right _ (List.mem_filterMap.mpr
      ⟨plainShape s, List.mem_map_of_mem (mem_of_lookup hs).1, hread⟩)

theorem put_entry (doc : Board) (n : Node) : (doc.put n).entry n = some n ↔
    n.Fits ∧ (n.kind ≠ .frame → Room n (lookup Shape.key doc.shapeList n.id)) := by
  by_cases hk : n.kind = .frame
  · rw [Board.put, if_pos hk, Board.entry, if_pos hk]
    dsimp only [Board.frameList]
    rw [Option.getD_some, lookup_upsert_self id_frameOf id_writeFrame, Option.map_some,
      Option.some_inj, and_iff_left fun hne => absurd hk hne]
    cases hf : lookup Frame.key (doc.frames.getD []) n.id with
    | none => exact read_frame hk (plain_frameOf n)
    | some f => exact read_frame hk (plain_writeFrame (lookup_id f hf))
  · rw [Board.put, if_neg hk, Board.entry, if_neg hk]
    dsimp only [Board.shapeList]
    rw [Option.getD_some, lookup_upsert_self id_shapeOf id_writeShape, Option.bind_some,
      (Written.elim lookup_id).read hk]
    exact and_congr_right fun _ => ⟨fun hroom _ => hroom, fun hroom => hroom hk⟩

/-- **What is written is read**, in every document and for every node, exactly where the document
has places for the node's fields and the entry that is written over has room for it. -/
theorem writes_read : Faithful doc n ↔
    n.Fits ∧ (n.kind ≠ .frame → Room n (lookup Shape.key doc.shapeList n.id)) := by
  rw [← put_entry]
  constructor
  · rintro ⟨⟨m, hentry, -, hsame⟩, -, -⟩
    rwa [of_decide_eq_true hsame] at hentry
  · intro hentry
    exact ⟨⟨n, hentry, mem_of_entry hentry, decide_eq_true rfl⟩, put_others doc n, put_put doc n⟩

end Writing

/-- A frame that the user has locked. -/
def lockedFrame : Node :=
  { frameNode ⟨"f1", none, 0, 0, 600, 420⟩ with locked := true }

theorem lock_unwritten : ¬Faithful ⟨none, none, none, none⟩ lockedFrame := by
  rintro ⟨⟨m, hentry, -, hsame⟩, -, -⟩
  have hlocked : m.locked = true := congrArg Node.locked (of_decide_eq_true hsame)
  have hread : (some m).map Node.locked = some false := by
    rw [← hentry]
    rfl
  rw [Option.map_some, hlocked] at hread
  cases hread

end Am

end Canvas

end LocalSpace
