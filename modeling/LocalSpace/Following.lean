import LocalSpace.Retained

/-!
# The index follows

Setting a node indexes it and the arrows that are attached to it; deleting one loosens its arrows
and sets them again. Over a run the index holds every box as the ends now are, where an arrow that
other arrows end at is set without moving, and what is indexed anew is found.
-/

namespace LocalSpace

namespace Canvas

open Function (update)

/-- The index holds every box but those of the arrows that are still to be set. -/
structure Retained.Sound (D : Layouts) (P : String → Prop) (s : Retained) : Prop where
  nodup : (s.nodes.map Node.id).Nodup
  index : s.index.Good
  boxes : ∀ i, ¬P i → s.index.boxes i = (Scene.get s.nodes i).map (boundsOf D s.nodes)
  pending : ∀ i, P i → ∀ b, s.index.boxes i = some b → 0 < b.w ∧ 0 < b.h
  attached : ∀ t i, i ∈ s.attached t → ∃ a, Scene.get s.nodes i = some a ∧ Attached a t
  complete : ∀ t i a, Scene.get s.nodes i = some a → Attached a t → ¬P i → i ∈ s.attached t
  lists : ∀ t, (s.attached t).Nodup
  order : ∀ l ∈ s.order, l = Scene.all s.nodes

section Setting

variable {D : Layouts} {P : String → Prop} {s : Retained} {n : Node} {i t : String}
  {nodes : List Node} {index : RTree}

/-- Arrows are indexed again, one after another. -/
theorem reindex_all (D : Layouts) (nodes : List Node) (l : List String) (h : index.Good) (harrows : ∀ i ∈ l, ∃ a, Scene.get nodes i = some a ∧
      a.kind = .arrow)
    (hwide : ∀ i ∈ l, ∀ b, index.boxes i = some b → 0 < b.w ∧ 0 < b.h) :
    (l.foldl (Retained.reindex D nodes) index).Good ∧
      ∀ i, (l.foldl (Retained.reindex D nodes) index).boxes i =
        if i ∈ l then (Scene.get nodes i).map (boundsOf D nodes) else index.boxes i := by
  induction l generalizing index with
  | nil => exact ⟨h, fun i => rfl⟩
  | cons j l ih =>
    obtain ⟨a, ha, hkind⟩ := harrows j List.mem_cons_self
    have hreindex : Retained.reindex D nodes index j = index.insert j (boundsOf D nodes a) := by
      rw [Retained.reindex, ha]
    obtain ⟨hgood, hboxes⟩ := h.insert (b := boundsOf D nodes a) fun b hb =>
      h.found hb (hwide j List.mem_cons_self b hb).1 (hwide j List.mem_cons_self b hb).2
    obtain ⟨hgood', hboxes'⟩ := ih hgood (fun i hi => harrows i (List.mem_cons_of_mem _ hi))
      fun i hi b hb => by
        rw [hboxes] at hb
        by_cases hij : i = j
        · rw [hij, Function.update_self] at hb
          cases hb
          exact boundsOf_arrow hkind
        · rw [Function.update_of_ne hij] at hb
          exact hwide i (List.mem_cons_of_mem _ hi) b hb
    rw [List.foldl_cons, hreindex]
    refine ⟨hgood', fun i => ?_⟩
    rw [hboxes', hboxes]
    by_cases hil : i ∈ l
    · rw [if_pos hil, if_pos (List.mem_cons_of_mem _ hil)]
    · rw [if_neg hil]
      by_cases hij : i = j
      · rw [hij, Function.update_self, if_pos List.mem_cons_self, ha]
        rfl
      · rw [Function.update_of_ne hij, if_neg (List.not_mem_cons_of_ne_of_not_mem hij hil)]

/-- What is attached without a node that is about to be set. -/
theorem Retained.Sound.mem_detached (h : s.Sound D P) (n : Node) :
    i ∈ s.detached n t ↔ i ∈ s.attached t ∧ i ≠ n.id := by
  rw [Retained.detached]
  cases hprevious : Scene.get s.nodes n.id with
  | none =>
    refine ⟨fun hi => ⟨hi, ?_⟩, And.left⟩
    rintro rfl
    obtain ⟨a, ha, -⟩ := h.attached t n.id hi
    rw [hprevious] at ha
    cases ha
  | some previous =>
    have hown : n.id ∈ s.attached t → previous.kind = .arrow ∧ t ∈ targets previous := by
      intro hi
      obtain ⟨a, ha, hat⟩ := h.attached t n.id hi
      rw [hprevious] at ha
      cases ha
      exact ⟨hat.1, (attached_iff_targets hat.1).mp hat⟩
    dsimp only
    split
    · rw [mem_detach]
      refine and_congr_right fun hi => ⟨?_, fun hne _ => hne⟩
      rintro hne rfl
      exact hne (hown hi).2 rfl
    · next hkinds =>
      refine ⟨fun hi => ⟨hi, ?_⟩, And.left⟩
      rintro rfl
      exact hkinds (.inl (hown hi).1)

theorem Retained.Sound.nodup_detached (h : s.Sound D P) (n : Node) : (s.detached n t).Nodup := by
  rw [Retained.detached]
  cases Scene.get s.nodes n.id with
  | none => exact h.lists t
  | some previous =>
    dsimp only
    split
    · exact nodup_detach (h.lists t)
    · exact h.lists t

/-- The boxes of other nodes: one that does not name the node that is set is as it was. -/
theorem boundsOf_keep {c : Node} (hc : ¬Attached c n.id) :
    boundsOf D (Scene.keep nodes n) c = boundsOf D nodes c := by
  refine boundsOf_congr fun t ht => ?_
  rw [get_keep, Function.update_of_ne]
  · exact rfl
  · rintro rfl
    exact hc ht

/-- **Setting** a node: its own box and those of the arrows at it are indexed. -/
theorem Retained.Sound.set (h : s.Sound D P)
    (hfound : ¬P n.id → ∀ b, s.index.boxes n.id = some b → Found n.id b s.index.root)
    (hstill : n.kind = .arrow → ∀ i c, Scene.get s.nodes i = some c → i ≠ n.id → ¬P i →
      Attached c n.id → boundsOf D (Scene.keep s.nodes (textLaid D n)) c = boundsOf D s.nodes c) :
    (s.set D n).Sound D fun i => P i ∧ i ≠ n.id := by
  have hget : Scene.get (Scene.keep s.nodes (textLaid D n)) =
      update (Scene.get s.nodes) n.id (some (textLaid D n)) := by
    rw [get_keep, textLaid_id]
  obtain ⟨hgood, hboxes⟩ := h.index.insert
    (b := boundsOf D (Scene.keep s.nodes (textLaid D n)) (textLaid D n)) fun b hb => by
      by_cases hp : P n.id
      · exact h.index.found hb (h.pending _ hp b hb).1 (h.pending _ hp b hb).2
      · exact hfound hp b hb
  have hnodup : ((Scene.keep s.nodes (textLaid D n)).map Node.id).Nodup :=
    nodup_upsert rfl (fun _ _ => rfl) h.nodup
  have hdetached : ∀ t i, i ∈ s.detached (textLaid D n) t ↔ i ∈ s.attached t ∧ i ≠ n.id := by
    intro t i
    rw [h.mem_detached, textLaid_id]
  have hothers : ∀ t i, i ∈ s.detached (textLaid D n) t →
      ∃ a, Scene.get (Scene.keep s.nodes (textLaid D n)) i = some a ∧ Attached a t := by
    intro t i hi
    obtain ⟨hin, hne⟩ := (hdetached t i).mp hi
    rw [hget, Function.update_of_ne hne]
    exact h.attached t i hin
  have hcomplete : ∀ t i a, Scene.get s.nodes i = some a → i ≠ n.id → Attached a t → ¬P i →
      i ∈ s.detached (textLaid D n) t := fun t i a ha hne hat hp =>
    (hdetached t i).mpr ⟨h.complete t i a ha hat hp, hne⟩
  rw [Retained.set, textLaid_kind, textLaid_id]
  split
  · next hk =>
    have hlaid : textLaid D n = n := textLaid_arrow hk
    refine ⟨hnodup, hgood, fun i hi => ?_, fun i hi b hb => ?_, fun t i hi => ?_,
      fun t i a ha hat hi => ?_, fun t => nodup_attach (h.nodup_detached _), fun l hl => nomatch hl⟩
    · dsimp only
      rw [hboxes, hget]
      by_cases hin : i = n.id
      · rw [hin, Function.update_self, Function.update_self]
        rfl
      · have hp : ¬P i := fun hp => hi ⟨hp, hin⟩
        rw [Function.update_of_ne hin, Function.update_of_ne hin, h.boxes i hp]
        cases hc : Scene.get s.nodes i with
        | none => rfl
        | some c =>
          refine congrArg some (Eq.symm ?_)
          by_cases hat : Attached c n.id
          · exact hstill hk i c hc hin hp hat
          · exact boundsOf_keep (by rwa [textLaid_id])
    · dsimp only at hb
      rw [hboxes, Function.update_of_ne hi.2] at hb
      exact h.pending i hi.1 b hb
    · obtain hi | ⟨ht, rfl⟩ := mem_attach.mp hi
      · exact hothers t i hi
      · rw [hget, textLaid_id, Function.update_self]
        refine ⟨_, rfl, (attached_iff_targets ?_).mpr ht⟩
        rwa [textLaid_kind]
    · refine mem_attach.mpr ?_
      dsimp only at ha
      rw [hget] at ha
      by_cases hin : i = n.id
      · rw [hin, Function.update_self] at ha
        cases ha
        refine .inr ⟨(attached_iff_targets ?_).mp hat, hin.trans (textLaid_id n).symm⟩
        rwa [textLaid_kind]
      · rw [Function.update_of_ne hin] at ha
        exact .inl (hcomplete t i a ha hin hat fun hp => hi ⟨hp, hin⟩)
  · next hk =>
    have hreindexed := reindex_all D (Scene.keep s.nodes (textLaid D n))
      (s.detached (textLaid D n) n.id) hgood
      (fun i hi => by
        obtain ⟨a, ha, hat⟩ := hothers n.id i hi
        exact ⟨a, ha, hat.1⟩)
      fun i hi b hb => by
        obtain ⟨hin, hne⟩ := (hdetached n.id i).mp hi
        rw [hboxes, Function.update_of_ne hne] at hb
        by_cases hp : P i
        · exact h.pending i hp b hb
        · obtain ⟨a, ha, hat⟩ := h.attached n.id i hin
          rw [h.boxes i hp, ha] at hb
          cases hb
          exact boundsOf_arrow hat.1
    obtain ⟨hgood', hboxes'⟩ := hreindexed
    refine ⟨hnodup, hgood', fun i hi => ?_, fun i hi b hb => ?_, hothers,
      fun t i a ha hat hi => ?_, fun t => h.nodup_detached _, fun l hl => nomatch hl⟩
    · dsimp only
      rw [hboxes']
      split
      · rfl
      · next hout =>
        rw [hboxes, hget]
        by_cases hin : i = n.id
        · rw [hin, Function.update_self, Function.update_self]
          rfl
        · have hp : ¬P i := fun hp => hi ⟨hp, hin⟩
          rw [Function.update_of_ne hin, Function.update_of_ne hin, h.boxes i hp]
          cases hc : Scene.get s.nodes i with
          | none => rfl
          | some c =>
            refine congrArg some (Eq.symm (boundsOf_keep ?_))
            rw [textLaid_id]
            exact fun hat => hout (hcomplete n.id i c hc hin hat hp)
    · dsimp only at hb
      rw [hboxes'] at hb
      split at hb
      · next hin =>
        obtain ⟨a, ha, hat⟩ := hothers n.id i hin
        rw [ha] at hb
        cases hb
        exact boundsOf_arrow hat.1
      · rw [hboxes, Function.update_of_ne hi.2] at hb
        exact h.pending i hi.1 b hb
    · dsimp only at ha
      rw [hget] at ha
      by_cases hin : i = n.id
      · rw [hin, Function.update_self] at ha
        cases ha
        exact absurd ((textLaid_kind n).symm.trans hat.1) hk
      · rw [Function.update_of_ne hin] at ha
        exact hcomplete t i a ha hin hat fun hp => hi ⟨hp, hin⟩

end Setting

/-! ### Deleting -/

section Deleting

variable {D : Layouts} {P : String → Prop} {s : Retained} {n node : Node} {id i t : String}

theorem loosen_free (a : Node) (id : String) : ¬Attached (s.loosen D id a) id := by
  rintro ⟨-, -, hfrom | hto⟩
  · rw [Retained.loosen] at hfrom
    dsimp only at hfrom
    split at hfrom
    · cases hfrom
    · next hne => exact hne hfrom
  · rw [Retained.loosen] at hto
    dsimp only at hto
    split at hto
    · cases hto
    · next hne => exact hne hto

/-- The arrows that are loosened are those that are attached. -/
theorem Retained.Sound.ids_loosened (h : s.Sound D P) (id : String) :
    (s.loosened D id).map Node.id = s.attached id := by
  have hall : ∀ l : List String, (∀ i ∈ l, i ∈ s.attached id) →
      ((l.filterMap (Scene.get s.nodes)).map (s.loosen D id)).map Node.id = l := by
    intro l hl
    induction l with
    | nil => rfl
    | cons i l ih =>
      obtain ⟨a, ha, -⟩ := h.attached id i (hl i List.mem_cons_self)
      have hid : a.id = i := (mem_of_lookup ha).2
      rw [List.filterMap_cons, ha]
      change a.id :: _ = i :: l
      rw [hid, ih fun j hj => hl j (List.mem_cons_of_mem _ hj)]
  exact hall _ fun i hi => hi

theorem Retained.Sound.mem_loosened (h : s.Sound D P) (hn : n ∈ s.loosened D id) :
    ∃ a, Scene.get s.nodes n.id = some a ∧ a.kind = .arrow ∧ n = s.loosen D id a := by
  obtain ⟨a, ha, rfl⟩ := List.mem_map.mp hn
  obtain ⟨i, hi, hget⟩ := List.mem_filterMap.mp ha
  have hid : a.id = i := (mem_of_lookup hget).2
  obtain ⟨b, hb, hat⟩ := h.attached id i hi
  rw [hget] at hb
  cases hb
  refine ⟨a, ?_, hat.1, rfl⟩
  change Scene.get s.nodes a.id = some a
  rw [hid, hget]

/-- Without a node, before its arrows are set again. -/
theorem Retained.Sound.without (h : s.Sound D fun _ => False) (hnode : Scene.get s.nodes id = some node)
    (hfound : ∀ b, s.index.boxes id = some b → Found id b s.index.root) :
    (s.without id node).Sound D fun i => i ∈ s.attached id := by
  have hget : ∀ i, Scene.get (s.nodes.filter fun n => n.id ≠ id) i =
      if i = id then none else Scene.get s.nodes i := fun i => get_filter
  have hbox : s.index.boxes id = some (boundsOf D s.nodes node) := by
    rw [h.boxes id not_false, hnode]
    rfl
  obtain ⟨-, hgood, hboxes⟩ := h.index.remove hbox (hfound _ hbox)
  -- Who is attached to what, once the node is gone.
  have hmem : ∀ t i, i ∈ (s.without id node).attached t ↔ t ≠ id ∧ i ∈ s.attached t ∧ i ≠ id := by
    intro t i
    have hupdate : i ∈ update s.attached id [] t ↔ t ≠ id ∧ i ∈ s.attached t := by
      by_cases ht : t = id
      · rw [ht, Function.update_self]
        exact ⟨fun hi => (nomatch hi), fun hi => absurd rfl hi.1⟩
      · rw [Function.update_of_ne ht, and_iff_right ht]
    have hown : id ∈ s.attached t → node.kind = .arrow ∧ t ∈ targets node := by
      intro hi
      obtain ⟨a, ha, hat⟩ := h.attached t id hi
      rw [hnode] at ha
      cases ha
      exact ⟨hat.1, (attached_iff_targets hat.1).mp hat⟩
    rw [Retained.without]
    dsimp only
    split
    · rw [mem_detach, hupdate, and_assoc]
      refine and_congr_right fun ht => and_congr_right fun hi => ⟨?_, fun hne _ => hne⟩
      rintro hne rfl
      exact hne (hown hi).2 rfl
    · next hk =>
      rw [hupdate]
      refine and_congr_right fun ht => ⟨fun hi => ⟨hi, ?_⟩, And.left⟩
      rintro rfl
      exact hk (hown hi).1
  refine ⟨h.nodup.sublist (List.filter_sublist.map Node.id), hgood, fun i hi => ?_,
    fun i hi b hb => ?_, fun t i hi => ?_, fun t i a ha hat hi => ?_, fun t => ?_,
    fun l hl => nomatch hl⟩
  · change (s.index.remove id).1.boxes i = (Scene.get (s.nodes.filter _) i).map (boundsOf D _)
    rw [hboxes, hget]
    by_cases hid : i = id
    · rw [hid, Function.update_self, if_pos rfl]
      rfl
    · rw [Function.update_of_ne hid, if_neg hid, h.boxes i not_false]
      cases hc : Scene.get s.nodes i with
      | none => rfl
      | some c =>
        refine congrArg some (boundsOf_congr fun t ht => ?_)
        have hne : t ≠ id := by
          rintro rfl
          exact hi (h.complete t i c hc ht not_false)
        have hother : Scene.get (s.without id node).nodes t = Scene.get s.nodes t :=
          (hget t).trans (if_neg hne)
        rw [hother]
        exact rfl
  · change (s.index.remove id).1.boxes i = some b at hb
    rw [hboxes] at hb
    by_cases hid : i = id
    · rw [hid, Function.update_self] at hb
      cases hb
    · obtain ⟨a, ha, hat⟩ := h.attached id i hi
      rw [Function.update_of_ne hid, h.boxes i not_false, ha] at hb
      cases hb
      exact boundsOf_arrow hat.1
  · obtain ⟨-, hin, hne⟩ := (hmem t i).mp hi
    change ∃ a, Scene.get (s.nodes.filter _) i = some a ∧ _
    rw [hget, if_neg hne]
    exact h.attached t i hin
  · change Scene.get (s.nodes.filter _) i = some a at ha
    rw [hget] at ha
    split at ha
    · cases ha
    · next hne =>
      have hin := h.complete t i a ha hat not_false
      refine (hmem t i).mpr ⟨?_, hin, hne⟩
      rintro rfl
      exact hi hin
  · have hupdate : ∀ t, (update s.attached id [] t).Nodup := by
      intro t
      by_cases ht : t = id
      · rw [ht, Function.update_self]
        exact List.nodup_nil
      · rw [Function.update_of_ne ht]
        exact h.lists t
    rw [Retained.without]
    dsimp only
    split
    · exact nodup_detach (hupdate t)
    · exact hupdate t

/-- What holds while the arrows of a node that is gone are set again: those that are left name it,
and look as they did. -/
structure Retained.Loosening (D : Layouts) (id : String) (rest : List Node) (s : Retained) :
    Prop where
  sound : s.Sound D fun i => i ∈ rest.map Node.id
  free : ∀ i c, Scene.get s.nodes i = some c → i ∉ rest.map Node.id → ¬Attached c id
  alike : ∀ m ∈ rest, m.id ≠ id → Alike (Scene.get s.nodes m.id) (some m)

theorem Retained.Sound.congr {Q : String → Prop} (h : s.Sound D P) (hpq : ∀ i, P i ↔ Q i) :
    s.Sound D Q := by
  have heq : P = Q := funext fun i => propext (hpq i)
  exact heq ▸ h

theorem Retained.Loosening.set {m : Node} {rest : List Node} (h : s.Loosening D id (m :: rest))
    (hkind : m.kind = .arrow) (hfree : ¬Attached m id) (hnodup : ((m :: rest).map Node.id).Nodup) :
    (s.set D m).Loosening D id rest := by
  rw [List.map_cons, List.nodup_cons] at hnodup
  have hlaid : textLaid D m = m := textLaid_arrow hkind
  have hmem : ∀ i, i ∈ (m :: rest).map Node.id ∧ i ≠ m.id ↔ i ∈ rest.map Node.id := by
    intro i
    rw [List.map_cons, List.mem_cons]
    constructor
    · rintro ⟨hi, hne⟩
      exact hi.resolve_left hne
    · intro hi
      exact ⟨.inr hi, fun heq => hnodup.1 (heq ▸ hi)⟩
  have hget : Scene.get (s.set D m).nodes = update (Scene.get s.nodes) m.id (some m) := by
    rw [Retained.set, hlaid, if_pos hkind, get_keep]
  refine ⟨(h.sound.set (fun hp => absurd List.mem_cons_self hp) ?_).congr hmem, ?_, ?_⟩
  · intro _ i c hc hne hp hat
    refine boundsOf_congr fun t _ => ?_
    rw [hlaid, get_keep]
    by_cases ht : t = m.id
    · -- The arrow is set where it stands, unless it is the one that is gone.
      subst ht
      rw [Function.update_self]
      by_cases hid : m.id = id
      · rw [hid] at hat
        exact absurd hat (h.free i c hc hp)
      · exact (h.alike m List.mem_cons_self hid).symm
    · rw [Function.update_of_ne ht]
      exact rfl
  · intro i c hc hi
    rw [hget] at hc
    by_cases him : i = m.id
    · rw [him, Function.update_self] at hc
      cases hc
      exact hfree
    · rw [Function.update_of_ne him] at hc
      exact h.free i c hc fun hin => hi ((hmem i).mp ⟨hin, him⟩)
  · intro m' hm' hid
    have hne : m'.id ≠ m.id := fun heq => hnodup.1 (heq ▸ List.mem_map_of_mem hm')
    rw [hget, Function.update_of_ne hne]
    exact h.alike m' (List.mem_cons_of_mem _ hm') hid

theorem Retained.Loosening.setAll {rest : List Node} (h : s.Loosening D id rest)
    (harrows : ∀ m ∈ rest, m.kind = .arrow ∧ ¬Attached m id)
    (hnodup : (rest.map Node.id).Nodup) :
    (rest.foldl (Retained.set D) s).Sound D fun _ => False := by
  induction rest generalizing s with
  | nil => exact h.sound.congr fun i => ⟨fun hi => (nomatch hi), False.elim⟩
  | cons m rest ih =>
    obtain ⟨hkind, hfree⟩ := harrows m List.mem_cons_self
    exact ih (h.set hkind hfree hnodup) (fun m' hm' => harrows m' (List.mem_cons_of_mem _ hm'))
      (List.nodup_cons.mp hnodup).2

/-- **Deleting** a node: its arrows keep pointing where it was, and are indexed there. -/
theorem Retained.Sound.delete (h : s.Sound D fun _ => False)
    (hfound : ∀ b, s.index.boxes id = some b → Found id b s.index.root) :
    (s.delete D id).Sound D fun _ => False := by
  rw [Retained.delete]
  cases hnode : Scene.get s.nodes id with
  | none => exact h
  | some node =>
    dsimp only
    have hids := h.ids_loosened (D := D) id
    have hget : ∀ i, Scene.get (s.without id node).nodes i =
        if i = id then none else Scene.get s.nodes i := fun i => get_filter
    have hloosening : (s.without id node).Loosening D id (s.loosened D id) := by
      refine ⟨?_, ?_, ?_⟩
      · rw [hids]
        exact h.without hnode hfound
      · intro i c hc hi hat
        rw [hget] at hc
        split at hc
        · cases hc
        · exact hi (hids ▸ h.complete id i c hc hat not_false)
      · intro m hm hid
        obtain ⟨a, ha, -, rfl⟩ := h.mem_loosened hm
        rw [hget, if_neg hid, ha]
        exact rfl
    refine hloosening.setAll (fun m hm => ?_) ?_
    · obtain ⟨a, ha, hkind, rfl⟩ := h.mem_loosened hm
      exact ⟨hkind, loosen_free a id⟩
    · rw [hids]
      exact h.lists id

end Deleting

/-! ### Runs -/

/-- What is asked of an operation: a node that is set again or deleted is found in the index, and
setting an arrow moves no end of another arrow at it. -/
def SceneOp.Meets (D : Layouts) (s : Retained) : SceneOp → Prop
  | .set n =>
    (∀ b, s.index.boxes n.id = some b → Found n.id b s.index.root) ∧
      (n.kind = .arrow → ∀ c ∈ s.nodes, c.id ≠ n.id → Attached c n.id →
        boundsOf D (Scene.keep s.nodes n) c = boundsOf D s.nodes c)
  | .delete id => ∀ b, s.index.boxes id = some b → Found id b s.index.root
  | .clear => True
  | .all => True

instance (D : Layouts) (s : Retained) : (op : SceneOp) → Decidable (op.Meets D s)
  | .set n =>
    have : Decidable (∀ b, s.index.boxes n.id = some b → Found n.id b s.index.root) :=
      inferInstanceAs (Decidable (∀ b ∈ s.index.boxes n.id, Found n.id b s.index.root))
    inferInstanceAs (Decidable (_ ∧ _))
  | .delete id => inferInstanceAs (Decidable (∀ b ∈ s.index.boxes id, Found id b s.index.root))
  | .clear | .all => .isTrue trivial

section Runs

variable {D : Layouts} {s : Retained} {op : SceneOp} {ops : List SceneOp}

theorem sound_empty : Retained.empty.Sound D fun _ => False :=
  ⟨List.nodup_nil, good_empty, fun _ _ => rfl, fun _ h => h.elim, fun _ _ h => (nomatch h),
    fun _ _ _ h => (nomatch h), fun _ => List.nodup_nil, fun _ h => (nomatch h)⟩

/-- **A step** keeps the index. -/
theorem Retained.Sound.step (h : s.Sound D fun _ => False) (hmeets : op.Meets D s) :
    (op.apply D s).Sound D fun _ => False := by
  cases op with
  | clear => exact sound_empty
  | delete id => exact h.delete hmeets
  | set n =>
    refine (h.set (fun _ => hmeets.1) fun hk i c hc hne _ hat => ?_).congr
      fun i => ⟨And.left, False.elim⟩
    obtain ⟨hmem, rfl⟩ := mem_of_lookup hc
    rw [textLaid_arrow hk]
    exact hmeets.2 hk c hmem hne hat
  | all =>
    refine ⟨h.nodup, h.index, h.boxes, h.pending, h.attached, h.complete, h.lists, fun l hl => ?_⟩
    change some (s.order.getD (Scene.all s.nodes)) = some l at hl
    cases hl
    change s.order.getD (Scene.all s.nodes) = Scene.all s.nodes
    cases horder : s.order with
    | none => rfl
    | some l => exact h.order l horder

/-- The drawing order is a linear one. -/
theorem pairwise_all (nodes : List Node) :
    (Scene.all nodes).Pairwise fun a b => a.z < b.z ∨ a.z = b.z ∧ a.id ≤ b.id := by
  rw [Scene.all]
  refine List.Pairwise.imp (fun h => of_decide_eq_true h)
    (List.pairwise_mergeSort (fun a b c hab hbc => ?_) (fun a b => ?_) nodes)
  · refine decide_eq_true ?_
    obtain hlt | ⟨heq, hle⟩ := of_decide_eq_true hab
    · obtain hlt' | ⟨heq', -⟩ := of_decide_eq_true hbc
      · exact .inl (hlt.trans hlt')
      · exact .inl (heq' ▸ hlt)
    · obtain hlt' | ⟨heq', hle'⟩ := of_decide_eq_true hbc
      · exact .inl (heq ▸ hlt')
      · exact .inr ⟨heq.trans heq', hle.trans hle'⟩
  · rw [Bool.or_eq_true, decide_eq_true_eq, decide_eq_true_eq]
    obtain hlt | heq | hlt := lt_trichotomy a.z b.z
    · exact .inl (.inl hlt)
    · exact (le_total a.id b.id).imp (fun hle => .inr ⟨heq, hle⟩) fun hle => .inr ⟨heq.symm, hle⟩
    · exact .inr (.inl hlt)

theorem Retained.Sound.follows (h : s.Sound D fun _ => False) : s.Follows D := by
  have hget : ∀ n ∈ s.nodes, Scene.get s.nodes n.id = some n := fun n hn =>
    lookup_eq_some h.nodup hn
  have hall : s.all.1 = Scene.all s.nodes := by
    change s.order.getD (Scene.all s.nodes) = Scene.all s.nodes
    cases horder : s.order with
    | none => rfl
    | some l => exact h.order l horder
  refine ⟨fun n hn => ?_, fun id arrow => ⟨fun harrow => ?_, ?_⟩, ?_⟩
  · rw [h.boxes n.id not_false, hget n hn]
    rfl
  · obtain ⟨a, ha, hat⟩ := h.attached id arrow harrow
    obtain ⟨hmem, hid⟩ := mem_of_lookup ha
    exact ⟨a, hmem, hid, hat⟩
  · rintro ⟨a, ha, rfl, hat⟩
    exact h.complete id a.id a (hget a ha) hat not_false
  · rw [hall]
    exact ⟨List.mergeSort_perm _ _, pairwise_all s.nodes⟩

def sceneAfter (D : Layouts) (ops : List SceneOp) : Retained :=
  ops.foldl (SceneOp.apply D) .empty

theorem sound_sceneAfter (h : ∀ before op after, ops = before ++ op :: after →
    op.Meets D (sceneAfter D before)) : (sceneAfter D ops).Sound D fun _ => False := by
  induction ops using List.reverseRecOn with
  | nil => exact sound_empty
  | append_singleton ops op ih =>
    rw [sceneAfter, List.foldl_append]
    refine (ih fun before op' after hsplit => ?_).step (h ops op [] rfl)
    exact h before op' (after ++ [op]) (by rw [hsplit, List.append_assoc]; rfl)

/-- **The scene's index follows** every dependency, after every run whose operations meet their
condition. -/
theorem index_follows (h : ∀ before op after, ops = before ++ op :: after →
    op.Meets D (sceneAfter D before)) : (sceneAfter D ops).Follows D :=
  (sound_sceneAfter h).follows

end Runs

/-- Lines of twenty, and ellipses like boxes. -/
def plainLayouts : Layouts :=
  ⟨fun _ _ _ => 36, boxEdgeTowards⟩

/-- A connector with its start at something, and its end at a point. -/
def connector (id fromId : String) (x : ℚ) (endAt : Point) : Node where
  id
  kind := .arrow
  x
  y := 0
  w := 0
  h := 0
  fill := .grey
  text := ""
  frame := none
  z := 1
  locked := false
  size := none
  fromId := some fromId
  toId := none
  startAt := none
  endAt := some endAt
  points := []
  name := none

/-- A box, a connector from it and one from that connector, which is then written on; the box is
moved, and deleted. -/
def dragged : List SceneOp :=
  let box (x : ℚ) : Node :=
    { connector "b" "" x (0, 0) with kind := .rect, w := 40, h := 30, fromId := none, endAt := none }
  let arrow := connector "c" "b" 0 (200, 10)
  [.set (box 0), .set arrow, .set (connector "d" "c" 5 (20, 60)), .set { arrow with text := "to" },
    .set (box 90), .delete "b"]

theorem dragged_meets : ∀ k : Fin dragged.length,
    dragged[k].Meets plainLayouts (sceneAfter plainLayouts (dragged.take k)) := by
  decide +kernel

/-- The connector's box goes with the box it starts at. -/
theorem index_follows_dragged :
    (sceneAfter plainLayouts dragged).Follows plainLayouts ∧
      (sceneAfter plainLayouts (dragged.take 4)).index.boxes "c" ≠
        (sceneAfter plainLayouts dragged).index.boxes "c" :=
  ⟨index_follows (Library.forall_split dragged_meets), by decide +kernel⟩

/-- A connector starts at another that is set afterwards, and is not indexed again. -/
theorem connector_left :
    ¬(sceneAfter plainLayouts [.set (connector "c" "a" 0 (10, 10)),
      .set (connector "a" "b" 5 (20, 0))]).Follows plainLayouts := by
  intro h
  have hbox := h.boxes (connector "c" "a" 0 (10, 10)) (by decide +kernel)
  exact absurd hbox (by decide +kernel)

end Canvas

end LocalSpace
