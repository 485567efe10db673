import Mathlib.Algebra.Order.Group.MinMax
import LocalSpace.Gestures
import LocalSpace.Retained

/-!
# Snapping

`snap.ts`: a box that is moved or resized comes to rest on the lines of the shapes around it, where one
is within reach, or else on the grid; the lines it rests on are drawn as guides. The editor then
rounds what it leaves (`moved`, `resized`), so that a guide is within a hundredth of the box. What
`resized` does to a box that would be too small, the guides do not know of.
-/

namespace LocalSpace

namespace Canvas

/-! ### Lines -/

inductive Axis where
  | x | y

/-- The two edges and the centre of a box. -/
def linesOn : Axis → Box → List ℚ
  | .x, b => [b.x, b.x + b.w / 2, b.x + b.w]
  | .y, b => [b.y, b.y + b.h / 2, b.y + b.h]

/-- Where a box begins along a line on an axis. -/
def startOn : Axis → Box → ℚ
  | .x, b => b.y
  | .y, b => b.x

def stopOn : Axis → Box → ℚ
  | .x, b => b.y + b.h
  | .y, b => b.x + b.w

/-- A line something rests on. -/
structure Guide where
  axis : Axis
  at' : ℚ
  start : ℚ
  stop : ℚ

structure SnapOptions where
  reach : ℚ
  shapes : Bool
  grid : ℚ

structure Snapped where
  dx : ℚ
  dy : ℚ
  guides : List Guide

/-- What a gesture can rest on; none where the shapes are not snapped to. -/
abbrev SnapTargets := Option (List Box)

/-- Lines nearer than this are one line. -/
def sameLine : ℚ := 1 / 1000

/-! ### Where a box comes to rest -/

/-- A shift that is shorter than the best one, or within reach where there is none yet. -/
def closer (best : Option ℚ × ℚ) (d : ℚ) : Option ℚ × ℚ :=
  let distance := |d|
  if if best.1.isNone then distance ≤ best.2 else distance < best.2 then (some d, distance)
  else best

/-- The shortest shift, within reach, that puts one of the lines on a target line. -/
def nearest (lines targets : List ℚ) (reach : ℚ) : Option ℚ :=
  (lines.foldl (fun best line =>
    targets.foldl (fun best target => closer best (target - line)) best) (none, reach)).1

/-- The shift that puts a value on the grid. -/
def toGrid (value grid : ℚ) : ℚ :=
  ⌊value / grid + 1 / 2⌋ * grid - value

/-- A guide's extent, and whether a target shares its line. -/
structure Extent where
  start : ℚ
  stop : ℚ
  shared : Bool

/-- A guide reaches over a target that shares its line. -/
def Extent.over (axis : Axis) (at' : ℚ) (e : Extent) (target : ℚ × Box) : Extent :=
  if |target.1 - at'| > sameLine then e
  else ⟨min e.start (startOn axis target.2), max e.stop (stopOn axis target.2), true⟩

/-- The targets' lines on an axis, each with its box. -/
def targetLines (axis : Axis) (targets : List Box) : List (ℚ × Box) :=
  targets.flatMap fun t => (linesOn axis t).map fun line => (line, t)

def guidesOn (axis : Axis) (lines : List ℚ) (box : Box) (targets : List Box) : List Guide :=
  lines.foldl (fun out at' =>
    if out.any fun g => |g.at' - at'| ≤ sameLine then out
    else
      let e := (targetLines axis targets).foldl (Extent.over axis at')
        ⟨startOn axis box, stopOn axis box, false⟩
      if e.shared then out ++ [⟨axis, at', e.start, e.stop⟩] else out) []

/-- The shift on an axis that puts some lines on a target line, where the shapes are snapped to. -/
def onShapes (axis : Axis) (lines : List ℚ) (targets : SnapTargets) (options : SnapOptions) :
    Option ℚ :=
  match targets with
  | some boxes =>
    if options.shapes then nearest lines ((targetLines axis boxes).map Prod.fst) options.reach
    else none
  | none => none

/-- The shift of an edge onto the grid, where there is one. -/
def onGrid (edge : ℚ) (options : SnapOptions) : ℚ :=
  if options.grid > 0 then toGrid edge options.grid else 0

/-- The guides on an axis, where the box came to rest on a shape. -/
def guidesWhere (axis : Axis) (rests : Bool) (lines : List ℚ) (box : Box) (targets : SnapTargets) :
    List Guide :=
  match targets with
  | some boxes => if rests then guidesOn axis lines box boxes else []
  | none => []

def snapMove (box : Box) (dx dy : ℚ) (targets : SnapTargets) (options : SnapOptions) : Snapped :=
  let moved : Box := ⟨box.x + dx, box.y + dy, box.w, box.h⟩
  let ox := onShapes .x (linesOn .x moved) targets options
  let oy := onShapes .y (linesOn .y moved) targets options
  let sx := ox.getD (onGrid moved.x options)
  let sy := oy.getD (onGrid moved.y options)
  let rest : Box := ⟨moved.x + sx, moved.y + sy, box.w, box.h⟩
  ⟨dx + sx, dy + sy,
    guidesWhere .x ox.isSome (linesOn .x rest) rest targets ++
      guidesWhere .y oy.isSome (linesOn .y rest) rest targets⟩

/-- The handles of a box. -/
inductive Grip where
  | nw | n | ne | e | se | s | sw | w

@[grind =]
def Grip.handle : Grip → Handle
  | nw => ⟨false, false, true, true⟩
  | n => ⟨false, false, false, true⟩
  | ne => ⟨true, false, false, true⟩
  | e => ⟨true, false, false, false⟩
  | se => ⟨true, true, false, false⟩
  | s => ⟨false, true, false, false⟩
  | sw => ⟨false, true, true, false⟩
  | w => ⟨false, false, true, false⟩

def snapResize (box : Box) (grip : Grip) (dx dy : ℚ) (targets : SnapTargets)
    (options : SnapOptions) : Snapped :=
  let h := grip.handle
  let edgeX := if h.e then box.x + box.w + dx else box.x + dx
  let edgeY := if h.s then box.y + box.h + dy else box.y + dy
  let ox := if h.e || h.w then onShapes .x [edgeX] targets options else none
  let oy := if h.n || h.s then onShapes .y [edgeY] targets options else none
  let fdx := dx + if h.e || h.w then ox.getD (onGrid edgeX options) else 0
  let fdy := dy + if h.n || h.s then oy.getD (onGrid edgeY options) else 0
  let left := if h.w then box.x + fdx else box.x
  let right := if h.e then box.x + box.w + fdx else box.x + box.w
  let top := if h.n then box.y + fdy else box.y
  let bottom := if h.s then box.y + box.h + fdy else box.y + box.h
  let rest : Box := ⟨min left right, min top bottom, |right - left|, |bottom - top|⟩
  ⟨fdx, fdy,
    guidesWhere .x ox.isSome [if h.e then right else left] rest targets ++
      guidesWhere .y oy.isSome [if h.s then bottom else top] rest targets⟩

/-- The box around the boxes of a selection. -/
def unionAll : List Box → Box
  | [] => ⟨0, 0, 0, 0⟩
  | b :: bs => bs.foldl union b

/-! ### What is promised of it -/

/-- The target lines that are considered on an axis. -/
def considered (axis : Axis) (targets : SnapTargets) (options : SnapOptions) : List ℚ :=
  match targets with
  | some boxes => if options.shapes then (targetLines axis boxes).map Prod.fst else []
  | none => []

/-- A target line is within reach of one of the lines. -/
def Near (reach : ℚ) (lines values : List ℚ) : Prop :=
  ∃ line ∈ lines, ∃ value ∈ values, |value - line| ≤ reach

/-- Where some lines come to rest: where a target line is within reach, by the least shift, within
reach, that puts one of them on one; and only elsewhere with an edge on the grid, or as they are. -/
structure ComesToRest (options : SnapOptions) (lines values : List ℚ) (edge shift : ℚ) : Prop where
  onLine : Near options.reach lines values → |shift| ≤ options.reach ∧
    (∃ line ∈ lines, line + shift ∈ values) ∧
      ∀ line ∈ lines, ∀ value ∈ values, |shift| ≤ |value - line|
  elsewhere : ¬Near options.reach lines values →
    (0 < options.grid → ∃ k : ℤ, edge + shift = k * options.grid) ∧
      (¬0 < options.grid → shift = 0)

/-- A guide tells where a box rests: near a line of a target, and near one of the box, and over
both. -/
structure Tells (targets : SnapTargets) (left : Box) (g : Guide) : Prop where
  target : ∃ boxes ∈ targets, ∃ t ∈ boxes, ∃ line ∈ linesOn g.axis t,
    |line - g.at'| ≤ sameLine ∧ g.start ≤ startOn g.axis t ∧ stopOn g.axis t ≤ g.stop
  line : ∃ line ∈ linesOn g.axis left, |line - g.at'| ≤ 1 / 100
  start : g.start ≤ startOn g.axis left + 1 / 100
  stop : stopOn g.axis left ≤ g.stop + 1 / 100

section Nearest

variable {lines values ds : List ℚ} {reach d edge : ℚ} {axis : Axis} {targets : SnapTargets}
  {options : SnapOptions}

/-- From a shift on, the loop comes to the least. -/
theorem foldl_closer_some (ds : List ℚ) (b : ℚ) :
    ∃ d, ds.foldl closer (some b, |b|) = (some d, |d|) ∧ (d = b ∨ d ∈ ds) ∧ |d| ≤ |b| ∧
      ∀ d' ∈ ds, |d| ≤ |d'| := by
  induction ds generalizing b with
  | nil => exact ⟨b, rfl, .inl rfl, le_rfl, fun _ h => nomatch h⟩
  | cons c ds ih =>
    by_cases hless : |c| < |b|
    · have hstep : closer (some b, |b|) c = (some c, |c|) := by
        simp [closer, hless]
      obtain ⟨d, hd, hmem, hle, hall⟩ := ih c
      refine ⟨d, by rw [List.foldl_cons, hstep, hd], .inr ?_, hle.trans hless.le, ?_⟩
      · rcases hmem with rfl | hmem
        · exact List.mem_cons_self
        · exact List.mem_cons_of_mem _ hmem
      · intro d' hd'
        rcases List.mem_cons.mp hd' with rfl | hd'
        · exact hle
        · exact hall d' hd'
    · have hstep : closer (some b, |b|) c = (some b, |b|) := by
        simp [closer, hless]
      obtain ⟨d, hd, hmem, hle, hall⟩ := ih b
      refine ⟨d, by rw [List.foldl_cons, hstep, hd], ?_, hle, ?_⟩
      · exact hmem.imp_right (List.mem_cons_of_mem _)
      · intro d' hd'
        rcases List.mem_cons.mp hd' with rfl | hd'
        · exact hle.trans (not_lt.mp hless)
        · exact hall d' hd'

/-- **The loop** finds the least shift within reach, or that there is none. -/
theorem foldl_closer (ds : List ℚ) (reach : ℚ) :
    (ds.foldl closer (none, reach) = (none, reach) ∧ ∀ d ∈ ds, ¬|d| ≤ reach) ∨
      ∃ d ∈ ds, ds.foldl closer (none, reach) = (some d, |d|) ∧ |d| ≤ reach ∧
        ∀ d' ∈ ds, |d| ≤ |d'| := by
  induction ds with
  | nil => exact .inl ⟨rfl, fun _ h => nomatch h⟩
  | cons c ds ih =>
    by_cases hnear : |c| ≤ reach
    · have hstep : closer (none, reach) c = (some c, |c|) := by
        simp [closer, hnear]
      obtain ⟨d, hd, hmem, hle, hall⟩ := foldl_closer_some ds c
      refine .inr ⟨d, ?_, by rw [List.foldl_cons, hstep, hd], hle.trans hnear, ?_⟩
      · rcases hmem with rfl | hmem
        · exact List.mem_cons_self
        · exact List.mem_cons_of_mem _ hmem
      · intro d' hd'
        rcases List.mem_cons.mp hd' with rfl | hd'
        · exact hle
        · exact hall d' hd'
    · have hstep : closer (none, reach) c = (none, reach) := by
        simp [closer, hnear]
      rw [List.foldl_cons, hstep]
      rcases ih with ⟨hnone, hall⟩ | ⟨d, hmem, hd, hle, hall⟩
      · refine .inl ⟨hnone, fun d' hd' => ?_⟩
        rcases List.mem_cons.mp hd' with rfl | hd'
        · exact hnear
        · exact hall d' hd'
      · refine .inr ⟨d, List.mem_cons_of_mem _ hmem, hd, hle, fun d' hd' => ?_⟩
        rcases List.mem_cons.mp hd' with rfl | hd'
        · exact hle.trans (not_le.mp hnear).le
        · exact hall d' hd'

theorem nearest_eq (lines values : List ℚ) (reach : ℚ) : nearest lines values reach =
    ((lines.flatMap fun line => values.map (· - line)).foldl closer (none, reach)).1 := by
  rw [nearest, List.foldl_flatMap]
  congr 1
  congr 1
  funext best line
  rw [List.foldl_map]

theorem mem_shifts : d ∈ lines.flatMap (fun line => values.map (· - line)) ↔
    ∃ line ∈ lines, ∃ value ∈ values, value - line = d := by
  simp only [List.mem_flatMap, List.mem_map]

/-- **Where lines come to rest.** -/
theorem comesToRest (lines values : List ℚ) (edge : ℚ) (options : SnapOptions) :
    ComesToRest options lines values edge
      ((nearest lines values options.reach).getD (onGrid edge options)) := by
  rw [nearest_eq]
  rcases foldl_closer (lines.flatMap fun line => values.map (· - line)) options.reach with
    ⟨hnone, hall⟩ | ⟨d, hd, hsome, hle, hall⟩
  · rw [hnone]
    refine ⟨?_, fun _ => ⟨fun hgrid => ?_, fun hgrid => ?_⟩⟩
    · rintro ⟨line, hline, value, hvalue, hnear⟩
      exact absurd hnear (hall _ (mem_shifts.mpr ⟨line, hline, value, hvalue, rfl⟩))
    · refine ⟨⌊edge / options.grid + 1 / 2⌋, ?_⟩
      rw [Option.getD_none, onGrid, if_pos hgrid, toGrid]
      ring
    · rw [Option.getD_none, onGrid, if_neg hgrid]
  · rw [hsome]
    obtain ⟨line, hline, value, hvalue, rfl⟩ := mem_shifts.mp hd
    refine ⟨fun _ => ⟨hle, ⟨line, hline, ?_⟩, ?_⟩, ?_⟩
    · rw [Option.getD_some, add_sub_cancel]
      exact hvalue
    · intro line' hline' value' hvalue'
      exact hall _ (mem_shifts.mpr ⟨line', hline', value', hvalue', rfl⟩)
    · exact fun hnot => absurd ⟨line, hline, value, hvalue, hle⟩ hnot

theorem nearest_nil (lines : List ℚ) (reach : ℚ) : nearest lines [] reach = none := by
  have hnone : lines.flatMap (fun line => ([] : List ℚ).map (· - line)) = [] :=
    List.flatMap_eq_nil_iff.mpr fun _ _ => rfl
  rw [nearest_eq, hnone]
  rfl

theorem onShapes_eq (axis : Axis) (lines : List ℚ) (targets : SnapTargets)
    (options : SnapOptions) : onShapes axis lines targets options =
      nearest lines (considered axis targets options) options.reach := by
  unfold onShapes considered
  cases targets with
  | none => exact (nearest_nil lines _).symm
  | some boxes =>
    dsimp only
    split
    · rfl
    · exact (nearest_nil lines _).symm

end Nearest

/-! ### Guides -/

section Guides

variable {axis : Axis} {lines : List ℚ} {box : Box} {targets : List Box} {g : Guide}

/-- What a guide's extent comes to. -/
theorem foldl_over (axis : Axis) (at' : ℚ) (ps : List (ℚ × Box)) (e : Extent) :
    let reached := ps.foldl (Extent.over axis at') e
    reached.start ≤ e.start ∧ e.stop ≤ reached.stop ∧
      (reached.shared = true → e.shared = true ∨ ∃ p ∈ ps, |p.1 - at'| ≤ sameLine ∧
        reached.start ≤ startOn axis p.2 ∧ stopOn axis p.2 ≤ reached.stop) := by
  induction ps generalizing e with
  | nil => exact ⟨le_rfl, le_rfl, .inl⟩
  | cons p ps ih =>
    obtain ⟨hstart, hstop, hshared⟩ := ih (e.over axis at' p)
    dsimp only [List.foldl_cons]
    rw [Extent.over] at hstart hstop hshared ⊢
    split at hstart
    · rename_i hfar
      rw [if_pos hfar] at hstop hshared ⊢
      refine ⟨hstart, hstop, fun h => (hshared h).imp_right ?_⟩
      rintro ⟨q, hq, hnear⟩
      exact ⟨q, List.mem_cons_of_mem _ hq, hnear⟩
    · rename_i hnear
      rw [if_neg hnear] at hstop hshared ⊢
      refine ⟨hstart.trans (min_le_left _ _), (le_max_left _ _).trans hstop, fun _ => .inr ?_⟩
      exact ⟨p, List.mem_cons_self, not_lt.mp hnear, hstart.trans (min_le_right _ _),
        (le_max_right _ _).trans hstop⟩

/-- A guide on some lines of a box. -/
structure GuideOf (axis : Axis) (lines : List ℚ) (box : Box) (targets : List Box) (g : Guide) :
    Prop where
  on : g.axis = axis
  line : g.at' ∈ lines
  start : g.start ≤ startOn axis box
  stop : stopOn axis box ≤ g.stop
  target : ∃ t ∈ targets, ∃ line ∈ linesOn axis t,
    |line - g.at'| ≤ sameLine ∧ g.start ≤ startOn axis t ∧ stopOn axis t ≤ g.stop

/-- **Every guide** lies on a line of the box that a target shares, over both. -/
theorem guidesOn_of (h : g ∈ guidesOn axis lines box targets) :
    GuideOf axis lines box targets g := by
  suffices hall : ∀ (ls : List ℚ) (out : List Guide), (∀ l ∈ ls, l ∈ lines) →
      (∀ g ∈ out, GuideOf axis lines box targets g) →
      ∀ g ∈ ls.foldl (fun out at' =>
        if out.any fun g => |g.at' - at'| ≤ sameLine then out
        else
          let e := (targetLines axis targets).foldl (Extent.over axis at')
            ⟨startOn axis box, stopOn axis box, false⟩
          if e.shared then out ++ [⟨axis, at', e.start, e.stop⟩] else out) out,
        GuideOf axis lines box targets g from
    hall lines [] (fun _ h => h) (fun _ h => nomatch h) g h
  intro ls
  induction ls with
  | nil => exact fun out _ hout => hout
  | cons at' ls ih =>
    intro out hls hout
    refine ih _ (fun l hl => hls l (List.mem_cons_of_mem _ hl)) ?_
    dsimp only
    split
    · exact hout
    · split
      · rename_i hshared
        intro g hg
        rcases List.mem_append.mp hg with hg | hg
        · exact hout g hg
        · cases List.mem_singleton.mp hg
          obtain ⟨hstart, hstop, hover⟩ := foldl_over axis at' (targetLines axis targets)
            ⟨startOn axis box, stopOn axis box, false⟩
          rcases hover hshared with hfalse | ⟨p, hp, hnear, hlow, hhigh⟩
          · cases hfalse
          · obtain ⟨t, ht, hmem⟩ := List.mem_flatMap.mp hp
            obtain ⟨line, hline, rfl⟩ := List.mem_map.mp hmem
            exact ⟨rfl, hls _ List.mem_cons_self, hstart, hstop, t, ht, line, hline, hnear, hlow,
              hhigh⟩
      · exact hout

end Guides

/-! ### What the editor leaves -/

section Leaving

variable {n : Node} {targets : SnapTargets} {options : SnapOptions} {dx dy v : ℚ} {grip : Grip}
  {axis : Axis} {lines : List ℚ} {rest left : Box} {rests : Bool} {g : Guide} {D : Layouts}
  {scene ns : List Node}

theorem round_near (v : ℚ) : |round v - v| ≤ 1 / 200 := by
  have hlow := Int.floor_le (v * 100 + 1 / 2)
  have hhigh := Int.lt_floor_add_one (v * 100 + 1 / 2)
  rw [round, abs_le]
  constructor <;> linarith

/-- What is left of a box is as large as it rests, to a hundredth. -/
structure Leaves (rest left : Box) : Prop where
  startX : rest.x ≤ left.x + 1 / 100
  stopX : left.x + left.w ≤ rest.x + rest.w + 1 / 100
  startY : rest.y ≤ left.y + 1 / 100
  stopY : left.y + left.h ≤ rest.y + rest.h + 1 / 100

/-- A guide on a line of the box at rest tells where the box that is left rests. -/
theorem tells (h : g ∈ guidesWhere axis rests lines rest targets) (hleaves : Leaves rest left)
    (hlines : ∀ at' ∈ lines, ∃ line ∈ linesOn axis left, |line - at'| ≤ 1 / 100) :
    Tells targets left g := by
  unfold guidesWhere at h
  split at h
  · rename_i boxes
    split at h
    · obtain ⟨rfl, hline, hstart, hstop, htarget⟩ := guidesOn_of h
      refine ⟨⟨boxes, rfl, htarget⟩, hlines _ hline, ?_, ?_⟩
      · cases haxis : g.axis with
        | x =>
          rw [haxis] at hstart
          exact hstart.trans hleaves.startY
        | y =>
          rw [haxis] at hstart
          exact hstart.trans hleaves.startX
      · cases haxis : g.axis with
        | x =>
          rw [haxis] at hstop
          exact hleaves.stopY.trans (add_le_add_left hstop _)
        | y =>
          rw [haxis] at hstop
          exact hleaves.stopX.trans (add_le_add_left hstop _)
    · cases h
  · cases h

/-- A box is where another was, less an offset, each edge to half a hundredth. -/
structure Beside (dx dy : ℚ) (left b : Box) : Prop where
  west : |left.x - (b.x + dx)| ≤ 1 / 200
  east : |left.x + left.w - (b.x + b.w + dx)| ≤ 1 / 200
  north : |left.y - (b.y + dy)| ≤ 1 / 200
  south : |left.y + left.h - (b.y + b.h + dy)| ≤ 1 / 200

theorem moved_beside (n : Node) (dx dy : ℚ) :
    Beside dx dy (nodeBox (moved n dx dy)) (nodeBox n) := by
  have hx := round_near (n.x + dx)
  have hy := round_near (n.y + dy)
  refine ⟨hx, ?_, hy, ?_⟩
  · simp only [nodeBox, moved]
    rw [add_right_comm n.x, add_sub_add_right_eq_sub]
    exact hx
  · simp only [nodeBox, moved]
    rw [add_right_comm n.y, add_sub_add_right_eq_sub]
    exact hy

theorem union_beside {a b a' b' : Box} (ha : Beside dx dy a a') (hb : Beside dx dy b b') :
    Beside dx dy (union a b) (union a' b') := by
  constructor <;> simp only [union, add_sub_cancel]
  · rw [← min_add_add_right]
    exact (abs_min_sub_min_le_max _ _ _ _).trans (max_le ha.west hb.west)
  · rw [← max_add_add_right]
    exact (abs_max_sub_max_le_max _ _ _ _).trans (max_le ha.east hb.east)
  · rw [← min_add_add_right]
    exact (abs_min_sub_min_le_max _ _ _ _).trans (max_le ha.north hb.north)
  · rw [← max_add_add_right]
    exact (abs_max_sub_max_le_max _ _ _ _).trans (max_le ha.south hb.south)

/-- The scene after nodes of it are moved. -/
def movedScene (D : Layouts) (scene ns : List Node) (dx dy : ℚ) : List Node :=
  (ns.map fun n => textLaid D (moved n dx dy)).foldl Scene.keep scene

/-- Nodes of a scene that are moved: as they are laid out, and no arrow with an end at a shape. -/
structure Carried (D : Layouts) (scene ns : List Node) : Prop where
  found : ∀ n ∈ ns, (Scene.get scene n.id).isSome = true
  laid : ∀ n ∈ ns, textLaid D n = n
  free : ∀ n ∈ ns, n.kind = .arrow → ∀ id ∈ Canvas.targets n, Scene.get scene id = none

/-- A number is where another was, less an offset, to half a hundredth. -/
def Shifted (d v' v : ℚ) : Prop :=
  |v' - (v + d)| ≤ 1 / 200

theorem shifted_round (v d : ℚ) : Shifted d (round (v + d)) v :=
  round_near _

theorem Shifted.min {a a' b b' d : ℚ} (ha : Shifted d a' a) (hb : Shifted d b' b) :
    Shifted d (min a' b') (min a b) := by
  rw [Shifted, ← min_add_add_right]
  exact (abs_min_sub_min_le_max _ _ _ _).trans (max_le ha hb)

theorem Shifted.max {a a' b b' d : ℚ} (ha : Shifted d a' a) (hb : Shifted d b' b) :
    Shifted d (max a' b') (max a b) := by
  rw [Shifted, ← max_add_add_right]
  exact (abs_max_sub_max_le_max _ _ _ _).trans (max_le ha hb)

theorem Shifted.add {a a' d : ℚ} (h : Shifted d a' a) (size : ℚ) :
    Shifted d (a' + size) (a + size) := by
  rw [Shifted, add_right_comm, add_sub_add_right_eq_sub]
  exact h

/-- A box whose edges are `start` and the further of `stop` and one from it. -/
theorem beside_of_edges {x y u v x' y' u' v' : ℚ} (hx : Shifted dx x' x) (hy : Shifted dy y' y)
    (hu : Shifted dx u' u) (hv : Shifted dy v' v) :
    Beside dx dy ⟨x', y', max 1 (u' - x'), max 1 (v' - y')⟩
      ⟨x, y, max 1 (u - x), max 1 (v - y)⟩ := by
  have hedge : ∀ a b : ℚ, a + max 1 (b - a) = max (a + 1) b := fun a b => by
    rw [← max_add_add_left, add_sub_cancel]
  refine ⟨hx, ?_, hy, ?_⟩
  · simp only [hedge]
    exact (hx.add 1).max hu
  · simp only [hedge]
    exact (hy.add 1).max hv

theorem foldl_shifted {op : ℚ → ℚ → ℚ} {f : Point → ℚ} {d : ℚ}
    (hop : ∀ {a a' b b' : ℚ}, Shifted d a' a → Shifted d b' b → Shifted d (op a' b') (op a b))
    (hf : ∀ q, Shifted d (f (movePoint q dx dy)) (f q)) (ps : List Point) {a' a : ℚ}
    (h : Shifted d a' a) :
    Shifted d ((ps.map fun q => movePoint q dx dy).foldl (fun m q => op m (f q)) a')
      (ps.foldl (fun m q => op m (f q)) a) := by
  induction ps generalizing a' a with
  | nil => exact h
  | cons q ps ih => exact ih (hop h (hf q))

/-- The box around points that are each moved. -/
theorem around_beside (p : Point) (ps : List Point) :
    Beside dx dy (around (movePoint p dx dy) (ps.map fun q => movePoint q dx dy))
      (around p ps) := by
  have hx : ∀ q : Point, Shifted dx (movePoint q dx dy).1 q.1 := fun q => shifted_round q.1 dx
  have hy : ∀ q : Point, Shifted dy (movePoint q dx dy).2 q.2 := fun q => shifted_round q.2 dy
  exact beside_of_edges (foldl_shifted .min hx ps (hx p)) (foldl_shifted .min hy ps (hy p))
    (foldl_shifted .max hx ps (hx p)) (foldl_shifted .max hy ps (hy p))

/-- The box between an arrow's ends. -/
theorem between_beside {a a' b b' : Point} (ha : Shifted dx a'.1 a.1 ∧ Shifted dy a'.2 a.2)
    (hb : Shifted dx b'.1 b.1 ∧ Shifted dy b'.2 b.2) :
    Beside dx dy ⟨min a'.1 b'.1, min a'.2 b'.2, max 1 |a'.1 - b'.1|, max 1 |a'.2 - b'.2|⟩
      ⟨min a.1 b.1, min a.2 b.2, max 1 |a.1 - b.1|, max 1 |a.2 - b.2|⟩ := by
  have hsize : ∀ u v : ℚ, |u - v| = max u v - min u v := fun u v => (max_sub_min_eq_abs' u v).symm
  simp only [hsize]
  exact beside_of_edges (ha.1.min hb.1) (ha.2.min hb.2) (ha.1.max hb.1) (ha.2.max hb.2)

theorem get_movedScene_isSome (h : Carried D scene ns) (id : String) :
    (Scene.get (movedScene D scene ns dx dy) id).isSome = (Scene.get scene id).isSome := by
  have hall : ∀ l : List Node, (∀ n ∈ l, (Scene.get scene n.id).isSome = true) → ∀ f,
      (∀ i, (f i).isSome = (Scene.get scene i).isSome) →
        (overlay (l.map fun n => textLaid D (moved n dx dy)) f id).isSome =
          (Scene.get scene id).isSome := by
    intro l
    induction l with
    | nil => exact fun _ f hf => hf id
    | cons n l ih =>
      intro hl f hf
      have hid : (textLaid D (moved n dx dy)).id = n.id := by
        rw [textLaid]
        split_ifs <;> rfl
      refine ih (fun m hm => hl m (List.mem_cons_of_mem _ hm)) _ fun i => ?_
      dsimp only
      by_cases hi : i = n.id
      · rw [hid, hi, Function.update_self, hl n List.mem_cons_self]
        rfl
      · rw [hid, Function.update_of_ne hi, hf]
  rw [movedScene, get_keepAll]
  exact hall ns h.found _ fun _ => rfl

/-- An end that names no shape of the scene names none of the scene that is left. -/
theorem Carried.unattached (h : Carried D scene ns) (hn : n ∈ ns) (harrow : n.kind = .arrow)
    {end' : Option String} (hend : end' = n.fromId ∨ end' = n.toId) :
    (truthy end').bind (Scene.get scene) = none ∧
      (truthy end').bind (Scene.get (movedScene D scene ns dx dy)) = none := by
  cases hid : truthy end' with
  | none => exact ⟨rfl, rfl⟩
  | some id =>
    have hnone : Scene.get scene id = none := by
      refine h.free n hn harrow id ?_
      rw [Canvas.targets, List.mem_append, Option.mem_toList, Option.mem_toList]
      exact hend.imp (fun he => by rw [← he]; exact hid) fun he => by rw [← he]; exact hid
    refine ⟨hnone, Option.isNone_iff_eq_none.mp ?_⟩
    have hsome : (Scene.get (movedScene D scene ns dx dy) id).isSome =
        (Scene.get scene id).isSome := get_movedScene_isSome h id
    rw [hnone] at hsome
    simpa using hsome

theorem Carried.arrow_beside (h : Carried D scene ns) (hn : n ∈ ns) (harrow : n.kind = .arrow) :
    Beside dx dy (boundsOf D (movedScene D scene ns dx dy) (moved n dx dy))
      (boundsOf D scene n) := by
  have hfree : ∀ {end'}, end' = n.fromId ∨ end' = n.toId →
      (truthy end').bind (Scene.get scene) = none ∧
        (truthy end').bind (Scene.get (movedScene D scene ns dx dy)) = none :=
    h.unattached hn harrow
  have hends : endpoints D scene n = (n.startAt.getD (n.x, n.y),
      n.endAt.getD (n.x + n.w, n.y + n.h)) := by
    rw [endpoints, (hfree (.inl rfl)).1, (hfree (.inr rfl)).1]
    rfl
  have hends' : endpoints D (movedScene D scene ns dx dy) (moved n dx dy) =
      ((n.startAt.map fun p => movePoint p dx dy).getD (round (n.x + dx), round (n.y + dy)),
        (n.endAt.map fun p => movePoint p dx dy).getD
          (round (n.x + dx) + n.w, round (n.y + dy) + n.h)) := by
    have hfrom : (moved n dx dy).fromId = n.fromId := rfl
    have hto : (moved n dx dy).toId = n.toId := rfl
    rw [endpoints, hfrom, hto, (hfree (.inl rfl)).2, (hfree (.inr rfl)).2]
    rfl
  have hkind : (moved n dx dy).kind = .arrow := harrow
  rw [boundsOf, boundsOf, hkind, harrow]
  dsimp only
  rw [hends, hends']
  refine between_beside ?_ ?_
  · cases n.startAt <;> exact ⟨shifted_round _ _, shifted_round _ _⟩
  · cases n.endAt with
    | none => exact ⟨(shifted_round _ _).add _, (shifted_round _ _).add _⟩
    | some p => exact ⟨shifted_round _ _, shifted_round _ _⟩

/-- What is neither an arrow nor a stroke has the box it says. -/
theorem boundsOf_eq_nodeBox (nodes : List Node) (harrow : n.kind ≠ .arrow)
    (hink : ¬(n.kind = .ink ∧ n.points ≠ [])) : boundsOf D nodes n = nodeBox n := by
  rw [boundsOf]
  split
  · next p ps hkind hpoints => exact absurd ⟨hkind, by rw [hpoints]; simp⟩ hink
  · next hkind => exact absurd hkind harrow
  · rfl

/-- **A node that is moved leaves its box beside where it was.** -/
theorem Carried.beside (h : Carried D scene ns) (hn : n ∈ ns) :
    Beside dx dy (boundsOf D (movedScene D scene ns dx dy) (textLaid D (moved n dx dy)))
      (boundsOf D scene n) := by
  have hlaid : textLaid D (moved n dx dy) = moved n dx dy := by
    have hsame := h.laid n hn
    rw [textLaid] at hsame ⊢
    split_ifs at hsame ⊢ with hmoved hkind
    · have hheight : D.height n.text (n.size.getD 16) (max 8 (n.w - 16)) = n.h :=
        congrArg Node.h hsame
      exact congrArg (fun h' => { moved n dx dy with h := h' }) hheight
    · exact absurd hmoved hkind
    · contradiction
    · rfl
  rw [hlaid]
  by_cases harrow : n.kind = .arrow
  · exact h.arrow_beside hn harrow
  by_cases hink : n.kind = .ink ∧ n.points ≠ []
  · obtain ⟨p, ps, hpoints⟩ := List.exists_cons_of_ne_nil hink.2
    have hpoints' : (moved n dx dy).points =
        movePoint p dx dy :: ps.map fun q => movePoint q dx dy := by
      rw [moved, hpoints]
      rfl
    have hkind : (moved n dx dy).kind = .ink := hink.1
    rw [boundsOf, boundsOf, hkind, hink.1, hpoints, hpoints']
    exact around_beside p ps
  · have hink' : ¬((moved n dx dy).kind = .ink ∧ (moved n dx dy).points ≠ []) := by
      rw [moved]
      simpa using hink
    rw [boundsOf_eq_nodeBox _ harrow hink, boundsOf_eq_nodeBox (n := moved n dx dy) _ harrow hink']
    exact moved_beside n dx dy

/-- Where the nodes of a selection are left, the box around them is. -/
theorem Carried.around (h : Carried D scene (n :: ns)) :
    Beside dx dy
      (unionAll ((n :: ns).map fun m =>
        boundsOf D (movedScene D scene (n :: ns) dx dy) (textLaid D (moved m dx dy))))
      (unionAll ((n :: ns).map (boundsOf D scene))) := by
  suffices hfold : ∀ ms : List Node, (∀ m ∈ ms, m ∈ n :: ns) → ∀ b b' : Box, Beside dx dy b b' →
      Beside dx dy ((ms.map fun m => boundsOf D (movedScene D scene (n :: ns) dx dy)
          (textLaid D (moved m dx dy))).foldl union b)
        ((ms.map (boundsOf D scene)).foldl union b') from
    hfold ns (fun m hm => List.mem_cons_of_mem _ hm) _ _ (h.beside List.mem_cons_self)
  intro ms
  induction ms with
  | nil => exact fun _ _ _ hb => hb
  | cons m ms ih =>
    exact fun hms b b' hb => ih (fun m' hm' => hms m' (List.mem_cons_of_mem _ hm')) _ _
      (union_beside hb (h.beside (hms m List.mem_cons_self)))

/-- Every line of a box that is moved is near the one that is left. -/
theorem move_lines (axis : Axis) {b : Box} (h : Beside dx dy left b) :
    ∀ at' ∈ linesOn axis ⟨b.x + dx, b.y + dy, b.w, b.h⟩,
      ∃ line ∈ linesOn axis left, |line - at'| ≤ 1 / 100 := by
  obtain ⟨hwest, heast, hnorth, hsouth⟩ := h
  rw [abs_le] at hwest heast hnorth hsouth
  intro at' hat
  cases axis with
  | x =>
    simp only [linesOn, List.mem_cons, List.not_mem_nil, or_false] at hat
    rcases hat with rfl | rfl | rfl
    · refine ⟨left.x, by simp [linesOn], abs_le.mpr ?_⟩
      constructor <;> linarith
    · refine ⟨left.x + left.w / 2, by simp [linesOn], abs_le.mpr ?_⟩
      constructor <;> linarith
    · refine ⟨left.x + left.w, by simp [linesOn], abs_le.mpr ?_⟩
      constructor <;> linarith
  | y =>
    simp only [linesOn, List.mem_cons, List.not_mem_nil, or_false] at hat
    rcases hat with rfl | rfl | rfl
    · refine ⟨left.y, by simp [linesOn], abs_le.mpr ?_⟩
      constructor <;> linarith
    · refine ⟨left.y + left.h / 2, by simp [linesOn], abs_le.mpr ?_⟩
      constructor <;> linarith
    · refine ⟨left.y + left.h, by simp [linesOn], abs_le.mpr ?_⟩
      constructor <;> linarith

/-- **The guides of a move** tell where the box rests that is left beside. -/
theorem snapMove_tells {b : Box} (h : g ∈ (snapMove b dx dy targets options).guides)
    (hleft : Beside (snapMove b dx dy targets options).dx (snapMove b dx dy targets options).dy
      left b) : Tells targets left g := by
  rw [snapMove] at h hleft
  dsimp only at h hleft
  generalize (onShapes .x (linesOn .x _) targets options).getD _ = sx at h hleft
  generalize (onShapes .y (linesOn .y _) targets options).getD _ = sy at h hleft
  rw [add_assoc, add_assoc] at h
  have hleaves : Leaves ⟨b.x + (dx + sx), b.y + (dy + sy), b.w, b.h⟩ left := by
    obtain ⟨hwest, heast, hnorth, hsouth⟩ := hleft
    rw [abs_le] at hwest heast hnorth hsouth
    constructor <;> dsimp only <;> linarith
  rcases List.mem_append.mp h with h | h
  · exact tells h hleaves (move_lines .x hleft)
  · exact tells h hleaves (move_lines .y hleft)

/-- A resize leaves a box as large as the editor lets one be, on the sides that it moves. -/
structure Roomy (b : Box) (h : Handle) (dx dy : ℚ) : Prop where
  east : h.e = true → 20 ≤ b.w + dx
  west : h.w = true → 20 ≤ b.w - dx
  south : h.s = true → 20 ≤ b.h + dy
  north : h.n = true → 20 ≤ b.h - dy

/-- The edges of a box as a handle leaves them, on one axis. -/
def edges (low high : Bool) (start size d : ℚ) : ℚ × ℚ :=
  (if low then start + d else start, if high then start + size + d else start + size)

/-- What the editor leaves of a box whose edges are far enough apart. -/
theorem resized_box (h : Roomy (nodeBox n) grip.handle dx dy) :
    nodeBox (resized n grip.handle dx dy) =
      let x := edges grip.handle.w grip.handle.e n.x n.w dx
      let y := edges grip.handle.n grip.handle.s n.y n.h dy
      ⟨round x.1, round y.1, round (x.2 - x.1), round (y.2 - y.1)⟩ := by
  obtain ⟨he, hw, hs, hn⟩ := h
  simp only [nodeBox] at he hw hs hn
  ext
  all_goals
    cases grip <;>
      simp only [nodeBox, resized, edges, Grip.handle, if_true, Bool.false_eq_true, if_false] at * <;>
      congr 1 <;> first
        | (rw [max_eq_right (by simpa using he)]; ring)
        | (rw [max_eq_right (by simpa using hw)]; ring)
        | (rw [max_eq_right (by simpa using hs)]; ring)
        | (rw [max_eq_right (by simpa using hn)]; ring)
        | ring

theorem min_add_abs (a b : ℚ) : min a b + |b - a| = max a b := by
  rcases le_total a b with h | h
  · rw [min_eq_left h, max_eq_right h, abs_of_nonneg (sub_nonneg.mpr h), add_sub_cancel]
  · rw [min_eq_right h, max_eq_left h, abs_of_nonpos (sub_nonpos.mpr h)]
    ring

/-- The edges that are left are near those at rest. -/
theorem round_edges (a b : ℚ) : |round a - a| ≤ 1 / 100 ∧ |round a + round (b - a) - b| ≤ 1 / 100 := by
  have ha := round_near a
  have hsize := round_near (b - a)
  rw [abs_le] at ha hsize
  constructor <;> rw [abs_le] <;> constructor <;> linarith

/-- **The guides of a resize** tell where the node rests, where its box stays large enough. -/
theorem snapResize_tells
    (hroomy : Roomy (nodeBox n) grip.handle
      (snapResize (nodeBox n) grip dx dy targets options).dx
      (snapResize (nodeBox n) grip dx dy targets options).dy)
    (h : g ∈ (snapResize (nodeBox n) grip dx dy targets options).guides) :
    Tells targets (nodeBox (resized n grip.handle
      (snapResize (nodeBox n) grip dx dy targets options).dx
      (snapResize (nodeBox n) grip dx dy targets options).dy)) g := by
  generalize hx : edges grip.handle.w grip.handle.e n.x n.w
    (snapResize (nodeBox n) grip dx dy targets options).dx = x
  generalize hy : edges grip.handle.n grip.handle.s n.y n.h
    (snapResize (nodeBox n) grip dx dy targets options).dy = y
  have hguides : ∃ onX onY, (snapResize (nodeBox n) grip dx dy targets options).guides =
      guidesWhere .x onX [if grip.handle.e then x.2 else x.1]
          ⟨min x.1 x.2, min y.1 y.2, |x.2 - x.1|, |y.2 - y.1|⟩ targets ++
        guidesWhere .y onY [if grip.handle.s then y.2 else y.1]
          ⟨min x.1 x.2, min y.1 y.2, |x.2 - x.1|, |y.2 - y.1|⟩ targets := by
    rw [← hx, ← hy]
    exact ⟨_, _, rfl⟩
  obtain ⟨onX, onY, hguides⟩ := hguides
  rw [hguides] at h
  rw [resized_box hroomy]
  dsimp only
  rw [hx, hy]
  obtain ⟨hlowX, hhighX⟩ := round_edges x.1 x.2
  obtain ⟨hlowY, hhighY⟩ := round_edges y.1 y.2
  have hleaves : Leaves ⟨min x.1 x.2, min y.1 y.2, |x.2 - x.1|, |y.2 - y.1|⟩
      ⟨round x.1, round y.1, round (x.2 - x.1), round (y.2 - y.1)⟩ := by
    have hminX := min_le_left x.1 x.2
    have hminY := min_le_left y.1 y.2
    have hmaxX := le_max_right x.1 x.2
    have hmaxY := le_max_right y.1 y.2
    rw [abs_le] at hlowX hhighX hlowY hhighY
    constructor <;> dsimp only
    · linarith
    · rw [min_add_abs]
      linarith
    · linarith
    · rw [min_add_abs]
      linarith
  rcases List.mem_append.mp h with h | h
  · refine tells h hleaves fun at' hat => ?_
    rw [List.mem_singleton] at hat
    subst hat
    split
    · exact ⟨round x.1 + round (x.2 - x.1), by simp [linesOn], hhighX⟩
    · exact ⟨round x.1, by simp [linesOn], hlowX⟩
  · refine tells h hleaves fun at' hat => ?_
    rw [List.mem_singleton] at hat
    subst hat
    split
    · exact ⟨round y.1 + round (y.2 - y.1), by simp [linesOn], hhighY⟩
    · exact ⟨round y.1, by simp [linesOn], hlowY⟩

/-- What is promised of a move, of the nodes of a selection with the box around them, where no arrow
among them has an end at a shape. -/
structure MoveRests (b : Box) (targets : SnapTargets) (options : SnapOptions) (dx dy : ℚ)
    (s : Snapped) : Prop where
  x : ComesToRest options (linesOn .x ⟨b.x + dx, b.y + dy, b.w, b.h⟩)
    (considered .x targets options) (b.x + dx) (s.dx - dx)
  y : ComesToRest options (linesOn .y ⟨b.x + dx, b.y + dy, b.w, b.h⟩)
    (considered .y targets options) (b.y + dy) (s.dy - dy)
  guides : ∀ D scene n ns, Carried D scene (n :: ns) →
    b = unionAll ((n :: ns).map (boundsOf D scene)) → ∀ g ∈ s.guides,
      Tells targets (unionAll ((n :: ns).map fun m =>
        boundsOf D (movedScene D scene (n :: ns) s.dx s.dy) (textLaid D (moved m s.dx s.dy)))) g

/-- What is promised of a resize: of the edges that the handle moves, and of the guides where the
box stays large enough. -/
structure ResizeRests (n : Node) (grip : Grip) (targets : SnapTargets) (options : SnapOptions)
    (dx dy : ℚ) (s : Snapped) : Prop where
  east : grip.handle.e = true → ComesToRest options [n.x + n.w + dx]
    (considered .x targets options) (n.x + n.w + dx) (s.dx - dx)
  west : grip.handle.w = true → ComesToRest options [n.x + dx]
    (considered .x targets options) (n.x + dx) (s.dx - dx)
  south : grip.handle.s = true → ComesToRest options [n.y + n.h + dy]
    (considered .y targets options) (n.y + n.h + dy) (s.dy - dy)
  north : grip.handle.n = true → ComesToRest options [n.y + dy]
    (considered .y targets options) (n.y + dy) (s.dy - dy)
  guides : Roomy (nodeBox n) grip.handle s.dx s.dy →
    ∀ g ∈ s.guides, Tells targets (nodeBox (resized n grip.handle s.dx s.dy)) g

/-- A shift on shapes or else on the grid, as it is added to an offset. -/
theorem shift_rests (axis : Axis) (lines : List ℚ) (edge d : ℚ) (targets : SnapTargets)
    (options : SnapOptions) : ComesToRest options lines (considered axis targets options) edge
      (d + (onShapes axis lines targets options).getD (onGrid edge options) - d) := by
  rw [add_sub_cancel_left, onShapes_eq]
  exact comesToRest _ _ _ _

/-- **Guides tell where the box rests**, whether it is moved or resized. -/
theorem snapped_rests (targets : SnapTargets) (options : SnapOptions) (dx dy : ℚ) :
    (∀ b, MoveRests b targets options dx dy (snapMove b dx dy targets options)) ∧
      ∀ n grip, ResizeRests n grip targets options dx dy
        (snapResize (nodeBox n) grip dx dy targets options) := by
  constructor
  · refine fun b => ⟨shift_rests .x _ _ dx targets options, shift_rests .y _ _ dy targets options,
      fun D scene n ns hcarried hbox g hg => snapMove_tells hg ?_⟩
    conv => rhs; rw [hbox]
    exact hcarried.around
  · refine fun n grip => ⟨?_, ?_, ?_, ?_, fun hroomy g hg => snapResize_tells hroomy hg⟩
    all_goals
      intro hmoves
      cases grip <;> first
        | exact absurd hmoves (by decide)
        | exact shift_rests .x _ _ dx targets options
        | exact shift_rests .y _ _ dy targets options

end Leaving

/-- A shape of 100 by 100. -/
def tile : Node :=
  ⟨"tile", .rect, 0, 0, 100, 100, .none, "", none, 0, false, none, none, none, none, none, [], none⟩

/-- Two such shapes, and an arrow between them. -/
def tied : List Node :=
  [tile, { tile with id := "other", x := 300 }, { tile with
    id := "arrow", kind := .arrow, w := 0, h := 0, fromId := some "tile", toId := some "other" }]

def boxLayouts : Layouts :=
  ⟨fun _ _ _ => 36, boxEdgeTowards⟩

/-- **A guide is not on the box exactly**, which is rounded, nor **on a target exactly**, which may be
a thousandth from it; a shape is not snapped to where shapes are not; an arrow between shapes is not
left where the guide says, nor is a box that would be too small. -/
theorem guide_off :
    (∃ g ∈ (snapMove (nodeBox tile) 0 0 (some [⟨1 / 3, 500, 50, 50⟩]) ⟨1, true, 0⟩).guides,
      g.at' ∉ linesOn g.axis (nodeBox (moved tile (1 / 3) 0))) ∧
    (snapMove (nodeBox tile) 0 0 (some [⟨1 / 3, 500, 50, 50⟩]) ⟨1, true, 0⟩).dx = 1 / 3 ∧
    (∃ g ∈ (snapMove (nodeBox tile) 0 0
        (some [⟨0, 500, 50, 50⟩, ⟨100 + 1 / 2000, 700, 50, 50⟩]) ⟨1, true, 0⟩).guides,
      ∀ t ∈ ([⟨0, 500, 50, 50⟩, ⟨100 + 1 / 2000, 700, 50, 50⟩] : List Box),
        g.at' ∉ linesOn g.axis t) ∧
    (Near 1 (linesOn .x (nodeBox tile)) (linesOn .x ⟨1 / 2, 500, 50, 50⟩) ∧
      (snapMove (nodeBox tile) 0 0 (some [⟨1 / 2, 500, 50, 50⟩]) ⟨1, false, 0⟩).dx = 0) ∧
    (∃ g ∈ (snapMove (boundsOf boxLayouts tied tied[2]) 0 (-49) (some [nodeBox tile])
        ⟨1, true, 0⟩).guides,
      ∀ line ∈ linesOn g.axis (boundsOf boxLayouts
          (movedScene boxLayouts tied [tied[2]] 0 (-50)) (moved tied[2] 0 (-50))),
        50 ≤ |line - g.at'|) ∧
    (snapMove (boundsOf boxLayouts tied tied[2]) 0 (-49) (some [nodeBox tile])
      ⟨1, true, 0⟩).dy = -50 ∧
    (∃ g ∈ (snapResize (nodeBox tile) .w 95 0 (some [⟨95, 500, 50, 50⟩]) ⟨1, true, 0⟩).guides,
      ∀ line ∈ linesOn g.axis (nodeBox (resized tile Grip.w.handle 95 0)), 1 ≤ |line - g.at'|) ∧
    (snapResize (nodeBox tile) .w 95 0 (some [⟨95, 500, 50, 50⟩]) ⟨1, true, 0⟩).dx = 95 := by
  unfold Near
  decide +kernel

end Canvas

end LocalSpace
