import LocalSpace.Canvas
import LocalSpace.Indexing

/-!
# The retained scene

`scene.ts`: every node by id, an R-tree over their boxes, the arrows that are attached to each shape
and the drawing order, which is kept until something changes. An arrow's box depends on the shapes
at its ends, so that it is indexed again when one of them is set.
-/

namespace LocalSpace

namespace Canvas

/-! ### Geometry -/

def nodeBox (n : Node) : Box :=
  ⟨n.x, n.y, n.w, n.h⟩

def centre (b : Box) : Point :=
  (b.x + b.w / 2, b.y + b.h / 2)

/-- The midpoint of the side of a box that faces a point. -/
def sideTowards (b : Box) (target : Point) : Point :=
  let c := centre b
  let dx := target.1 - c.1
  let dy := target.2 - c.2
  if |dy| ≤ |dx| then (if 0 ≤ dx then b.x + b.w else b.x, c.2)
  else (c.1, if 0 ≤ dy then b.y + b.h else b.y)

/-- Where a ray from a box's centre leaves the box. -/
def boxEdgeTowards (b : Box) (target : Point) : Point :=
  let c := centre b
  let dx := target.1 - c.1
  let dy := target.2 - c.2
  if dx = 0 ∧ dy = 0 then c
  else
    let scale := min (b.w / 2 / |if dx = 0 then 1 / 10 ^ 9 else dx|)
      (b.h / 2 / |if dy = 0 then 1 / 10 ^ 9 else dy|)
    (c.1 + dx * scale, c.2 + dy * scale)

/-- What the scene measures: how high a text is laid out, with its padding, at a size and in a
width; and where a ray from an ellipse's centre leaves it. -/
structure Layouts where
  height : String → ℚ → ℚ → ℚ
  ellipseEdgeTowards : Box → Point → Point

section Bounds

variable (D : Layouts) (nodes : List Node)

def edgeTowards (n : Node) (target : Point) : Point :=
  if n.kind = .ellipse then D.ellipseEdgeTowards (nodeBox n) target
  else boxEdgeTowards (nodeBox n) target

/-- An arrow's ends, with the shapes that were found for them. -/
def endsBetween (arrow : Node) (a b : Option Node) : Point × Point :=
  let freeStart := arrow.startAt.getD (arrow.x, arrow.y)
  let freeEnd := arrow.endAt.getD (arrow.x + arrow.w, arrow.y + arrow.h)
  match a, b with
  | some a, some b =>
    (sideTowards (nodeBox a) (centre (nodeBox b)), sideTowards (nodeBox b) (centre (nodeBox a)))
  | a, b =>
    (a.elim freeStart fun a => edgeTowards D a freeEnd,
      b.elim freeEnd fun b => edgeTowards D b freeStart)

/-- Where an arrow starts and ends among the nodes. -/
def endpoints (arrow : Node) : Point × Point :=
  endsBetween D arrow ((truthy arrow.fromId).bind (Scene.get nodes))
    ((truthy arrow.toId).bind (Scene.get nodes))

/-- The box around some points, at least 1 by 1. -/
def around (p : Point) (ps : List Point) : Box :=
  let x0 := ps.foldl (fun m q => min m q.1) p.1
  let y0 := ps.foldl (fun m q => min m q.2) p.2
  let x1 := ps.foldl (fun m q => max m q.1) p.1
  let y1 := ps.foldl (fun m q => max m q.2) p.2
  ⟨x0, y0, max 1 (x1 - x0), max 1 (y1 - y0)⟩

/-- The bounding box of a node: of a stroke's points, of an arrow's ends. -/
@[grind =]
def boundsOf (n : Node) : Box :=
  match n.kind, n.points with
  | .ink, p :: ps => around p ps
  | .arrow, _ =>
    let (a, b) := endpoints D nodes n
    ⟨min a.1 b.1, min a.2 b.2, max 1 |a.1 - b.1|, max 1 |a.2 - b.2|⟩
  | _, _ => nodeBox n

/-- A label gets its height from its text. -/
def textLaid (n : Node) : Node :=
  if n.kind = .text then { n with h := D.height n.text (n.size.getD 16) (max 8 (n.w - 16)) } else n

end Bounds

/-! ### The scene -/

/-- `Scene`: the nodes, their index, the arrows attached to each shape, the drawing order. -/
structure Retained where
  nodes : List Node
  index : RTree
  attached : String → List String
  order : Option (List Node)

/-- The ends of an arrow that name something. -/
def targets (n : Node) : List String :=
  (truthy n.fromId).toList ++ (truthy n.toId).toList

namespace Retained

@[grind =]
def empty : Retained :=
  ⟨[], .empty, fun _ => [], none⟩

variable (D : Layouts) (s : Retained)

def attach (attached : String → List String) (arrow : Node) : String → List String :=
  (targets arrow).foldl (fun attached t =>
    Function.update attached t
      (if arrow.id ∈ attached t then attached t else attached t ++ [arrow.id])) attached

def detach (attached : String → List String) (id : String) (arrow : Node) : String → List String :=
  (targets arrow).foldl (fun attached t =>
    Function.update attached t ((attached t).filter (· ≠ id))) attached

/-- An arrow's box is indexed again. -/
def reindex (nodes : List Node) (index : RTree) (id : String) : RTree :=
  match Scene.get nodes id with
  | none => index
  | some arrow => index.insert id (boundsOf D nodes arrow)

/-- What was attached, without what the node that was there was attached to. -/
def detached (node : Node) : String → List String :=
  match Scene.get s.nodes node.id with
  | none => s.attached
  | some previous =>
    if previous.kind = .arrow ∨ node.kind = .arrow then detach s.attached node.id previous
    else s.attached

/-- `set`: a node is added or replaced, and the arrows bound to it follow it. -/
@[grind =]
def set (n : Node) : Retained :=
  let node := textLaid D n
  let attached := s.detached node
  let nodes := Scene.keep s.nodes node
  let index := s.index.insert node.id (boundsOf D nodes node)
  if node.kind = .arrow then ⟨nodes, index, attach attached node, none⟩
  else ⟨nodes, (attached node.id).foldl (reindex D nodes) index, attached, none⟩

/-- An arrow whose end is going keeps pointing where the shape was. -/
def loosen (id : String) (arrow : Node) : Node :=
  let ends := endpoints D s.nodes arrow
  { arrow with
    fromId := if arrow.fromId = some id then none else arrow.fromId
    startAt := if arrow.fromId = some id then some ends.1 else arrow.startAt
    toId := if arrow.toId = some id then none else arrow.toId
    endAt := if arrow.toId = some id then some ends.2 else arrow.endAt }

/-- The arrows attached to an id, loosened. -/
def loosened (id : String) : List Node :=
  ((s.attached id).filterMap (Scene.get s.nodes)).map (s.loosen D id)

/-- The scene without a node; its arrows are still to be set. -/
def without (id : String) (node : Node) : Retained :=
  let attached := Function.update s.attached id []
  ⟨s.nodes.filter fun n => n.id ≠ id, (s.index.remove id).1,
    if node.kind = .arrow then detach attached id node else attached, none⟩

@[grind =]
def delete (id : String) : Retained :=
  match Scene.get s.nodes id with
  | none => s
  | some node => (s.loosened D id).foldl (set D) (s.without id node)

/-- `all`: the drawing order, which is kept. -/
@[grind =]
def all : List Node × Retained :=
  let order := s.order.getD (Scene.all s.nodes)
  (order, { s with order := some order })

end Retained

/-- What is done to a scene. -/
inductive SceneOp where
  | set (n : Node)
  | delete (id : String)
  | clear
  | all

namespace SceneOp

@[grind =]
def apply (D : Layouts) (s : Retained) : SceneOp → Retained
  | set n => s.set D n
  | delete id => s.delete D id
  | clear => .empty
  | all => s.all.2

end SceneOp

/-- The index follows: the box of every node is as its ends now are, what is attached to a shape are
the arrows whose end names it, and the nodes are drawn in their order. -/
structure Retained.Follows (D : Layouts) (s : Retained) : Prop where
  boxes : ∀ n ∈ s.nodes, s.index.boxes n.id = some (boundsOf D s.nodes n)
  attached : ∀ id arrow, arrow ∈ s.attached id ↔ ∃ a ∈ s.nodes, a.id = arrow ∧ Attached a id
  drawn : s.all.1.Perm s.nodes ∧
    s.all.1.Pairwise fun a b => a.z < b.z ∨ a.z = b.z ∧ a.id ≤ b.id

/-! ### What a box depends on -/

section Dependencies

variable {D : Layouts} {nodes nodes' : List Node} {n a : Node} {id : String}

theorem truthy_eq_some {v : Option String} : truthy v = some id ↔ v = some id ∧ id ≠ "" := by
  rw [truthy, Option.filter_eq_some_iff, decide_eq_true_eq]

theorem attached_iff (h : n.kind = .arrow) :
    Attached n id ↔ truthy n.fromId = some id ∨ truthy n.toId = some id := by
  rw [truthy_eq_some, truthy_eq_some, Attached]
  constructor
  · rintro ⟨-, hne, hfrom | hto⟩
    · exact .inl ⟨hfrom, hne⟩
    · exact .inr ⟨hto, hne⟩
  · rintro (⟨hfrom, hne⟩ | ⟨hto, hne⟩)
    · exact ⟨h, hne, .inl hfrom⟩
    · exact ⟨h, hne, .inr hto⟩

theorem mem_targets : id ∈ targets n ↔ truthy n.fromId = some id ∨ truthy n.toId = some id := by
  rw [targets, List.mem_append, Option.mem_toList, Option.mem_toList]

theorem attached_iff_targets (h : n.kind = .arrow) : Attached n id ↔ id ∈ targets n :=
  (attached_iff h).trans mem_targets.symm

/-- What an end is drawn from: a node's box, and whether it is an ellipse. -/
def Alike (a b : Option Node) : Prop :=
  (a.map fun n => (nodeBox n, decide (n.kind = .ellipse))) =
    b.map fun n => (nodeBox n, decide (n.kind = .ellipse))

theorem edgeTowards_alike {a b : Node} (h : Alike (some a) (some b)) (p : Point) :
    edgeTowards D a p = edgeTowards D b p := by
  have hpair := Option.some_inj.mp h
  have hbox : nodeBox a = nodeBox b := congrArg Prod.fst hpair
  have hkind : a.kind = .ellipse ↔ b.kind = .ellipse :=
    decide_eq_decide.mp (congrArg Prod.snd hpair)
  rw [edgeTowards, edgeTowards, hbox]
  by_cases hellipse : a.kind = .ellipse
  · rw [if_pos hellipse, if_pos (hkind.mp hellipse)]
  · rw [if_neg hellipse, if_neg fun hb => hellipse (hkind.mpr hb)]

theorem endsBetween_alike {a a' b b' : Option Node} (ha : Alike a a') (hb : Alike b b') :
    endsBetween D n a b = endsBetween D n a' b' := by
  have hbox : ∀ {c c' : Node}, Alike (some c) (some c') → nodeBox c = nodeBox c' :=
    fun h => congrArg Prod.fst (Option.some_inj.mp h)
  cases a with
  | none =>
    cases a' with
    | some a' => cases ha
    | none =>
      cases b with
      | none =>
        cases b' with
        | none => rfl
        | some b' => cases hb
      | some b =>
        cases b' with
        | none => cases hb
        | some b' => exact Prod.ext rfl (edgeTowards_alike hb _)
  | some a =>
    cases a' with
    | none => cases ha
    | some a' =>
      cases b with
      | none =>
        cases b' with
        | none => exact Prod.ext (edgeTowards_alike ha _) rfl
        | some b' => cases hb
      | some b =>
        cases b' with
        | none => cases hb
        | some b' =>
          rw [endsBetween, endsBetween, hbox ha, hbox hb]

/-- An arrow's ends depend on what it names only. -/
theorem endpoints_congr
    (h : ∀ t ∈ targets n, Alike (Scene.get nodes t) (Scene.get nodes' t)) :
    endpoints D nodes n = endpoints D nodes' n := by
  have hside : ∀ v : Option String, (∀ t, truthy v = some t → t ∈ targets n) →
      Alike ((truthy v).bind (Scene.get nodes)) ((truthy v).bind (Scene.get nodes')) := by
    intro v hv
    cases htruthy : truthy v with
    | none => rfl
    | some t => exact h t (hv t htruthy)
  have hfrom := hside n.fromId fun t ht => mem_targets.mpr (.inl ht)
  have hto := hside n.toId fun t ht => mem_targets.mpr (.inr ht)
  rw [endpoints, endpoints]
  exact endsBetween_alike hfrom hto

theorem boundsOf_shape (h : n.kind ≠ .arrow) : boundsOf D nodes n = boundsOf D nodes' n := by
  unfold boundsOf
  cases hk : n.kind with
  | arrow => exact absurd hk h
  | ink =>
    cases n.points with
    | nil => rfl
    | cons p ps => rfl
  | sticky => rfl
  | rect => rfl
  | ellipse => rfl
  | text => rfl
  | frame => rfl

/-- A box depends on what its node names only. -/
theorem boundsOf_congr (h : ∀ t, Attached n t → Alike (Scene.get nodes t) (Scene.get nodes' t)) :
    boundsOf D nodes n = boundsOf D nodes' n := by
  by_cases hk : n.kind = .arrow
  · have hends : endpoints D nodes n = endpoints D nodes' n :=
      endpoints_congr fun t ht => h t ((attached_iff_targets hk).mpr ht)
    rw [boundsOf, boundsOf, hk, hends]
  · exact boundsOf_shape hk

/-- An arrow's box has a width and a height. -/
theorem boundsOf_arrow (h : n.kind = .arrow) :
    0 < (boundsOf D nodes n).w ∧ 0 < (boundsOf D nodes n).h := by
  rw [boundsOf, h]
  exact ⟨lt_max_of_lt_left one_pos, lt_max_of_lt_left one_pos⟩

@[simp]
theorem textLaid_id (n : Node) : (textLaid D n).id = n.id := by
  rw [textLaid]
  split
  · rfl
  · rfl

@[simp]
theorem textLaid_kind (n : Node) : (textLaid D n).kind = n.kind := by
  rw [textLaid]
  split
  · rfl
  · rfl

theorem textLaid_arrow (h : n.kind = .arrow) : textLaid D n = n :=
  if_neg (by rw [h]; decide)

end Dependencies

/-! ### Attachments -/

section Attachments

variable {attached : String → List String} {arrow : Node} {id i t : String}

theorem foldl_update {f : String → List String → List String} (hf : ∀ t l, f t (f t l) = f t l)
    (l : List String) (t : String) :
    l.foldl (fun attached t => Function.update attached t (f t (attached t))) attached t =
      if t ∈ l then f t (attached t) else attached t := by
  induction l generalizing attached with
  | nil => rfl
  | cons u l ih =>
    rw [List.foldl_cons, ih]
    by_cases hu : t = u
    · subst hu
      rw [Function.update_self, hf, if_pos List.mem_cons_self, ite_self]
    · rw [Function.update_of_ne hu]
      by_cases hmem : t ∈ l
      · rw [if_pos hmem, if_pos (List.mem_cons_of_mem _ hmem)]
      · rw [if_neg hmem, if_neg (List.not_mem_cons_of_ne_of_not_mem hu hmem)]

theorem attach_apply (t : String) : Retained.attach attached arrow t =
    if t ∈ targets arrow then
      if arrow.id ∈ attached t then attached t else attached t ++ [arrow.id]
    else attached t := by
  rw [Retained.attach]
  refine foldl_update (f := fun _ l => if arrow.id ∈ l then l else l ++ [arrow.id]) (fun t l => ?_)
    _ t
  by_cases hmem : arrow.id ∈ l
  · rw [if_pos hmem, if_pos hmem]
  · rw [if_neg hmem, if_pos (List.mem_append_right _ List.mem_cons_self)]

theorem detach_apply (t : String) : Retained.detach attached id arrow t =
    if t ∈ targets arrow then (attached t).filter (· ≠ id) else attached t := by
  rw [Retained.detach]
  refine foldl_update (f := fun _ l => l.filter (· ≠ id)) (fun t l => ?_) _ t
  rw [List.filter_filter]
  simp

theorem mem_attach : i ∈ Retained.attach attached arrow t ↔
    i ∈ attached t ∨ t ∈ targets arrow ∧ i = arrow.id := by
  rw [attach_apply]
  split
  · next ht =>
    split
    · next hmem =>
      refine ⟨.inl, ?_⟩
      rintro (h | ⟨-, rfl⟩)
      · exact h
      · exact hmem
    · rw [List.mem_append, List.mem_singleton, and_iff_right ht]
  · next ht =>
    exact ⟨.inl, fun h => h.resolve_right fun hin => ht hin.1⟩

theorem mem_detach : i ∈ Retained.detach attached id arrow t ↔
    i ∈ attached t ∧ (t ∈ targets arrow → i ≠ id) := by
  rw [detach_apply]
  split
  · next ht =>
    rw [List.mem_filter, decide_eq_true_eq, forall_prop_of_true ht]
  · next ht => exact ⟨fun h => ⟨h, fun hin => absurd hin ht⟩, And.left⟩

theorem nodup_attach (h : (attached t).Nodup) : (Retained.attach attached arrow t).Nodup := by
  rw [attach_apply]
  split
  · split
    · exact h
    · next hmem =>
      exact List.nodup_append.mpr ⟨h, List.nodup_singleton _, fun a ha b hb heq =>
        hmem (List.mem_singleton.mp hb ▸ heq ▸ ha)⟩
  · exact h

theorem nodup_detach (h : (attached t).Nodup) : (Retained.detach attached id arrow t).Nodup := by
  rw [detach_apply]
  split
  · exact h.filter _
  · exact h

end Attachments

end Canvas

end LocalSpace
