import LocalSpace.Gestures

/-!
# Scene, document and what was shown

Off what is in the user's hands the scene is the document, id by id, and what the replica keeps as
shown is the document's (`Agrees`). A commit brings the three together on what it sets or deletes
(`Agrees.commit_set`, `Agrees.commit_delete`), and so does a document that spares what is held
(`Agrees.showDoc`).
-/

namespace LocalSpace

namespace Canvas

open Whiteboard (Kind)

/-! ### Agreement -/

/-- What the gesture in progress may have changed in the scene and not committed yet. -/
@[grind =]
def State.Dragged (s : State) (i : String) : Prop :=
  match s.drag with
  | some (.move origin true) => i ∈ origin.map Node.id
  | some (.resize _ origin) => i = origin.id
  | _ => False

/-- The label that is being edited: the scene has it as it is typed. -/
def State.Typed (s : State) (i : String) : Prop :=
  (∃ text, s.editing = some (i, text)) ∧ ∃ n, Scene.get s.scene i = some n ∧ n.kind = .text

def State.InHand (s : State) (i : String) : Prop :=
  s.Dragged i ∨ s.Typed i

/-- A node the document can hold under its id. -/
structure Node.Good (isFrame : String → Bool) (n : Node) : Prop where
  proper : n.Proper
  named : n.id ≠ ""
  kind : isFrame n.id = decide (n.kind = .frame)
  own : ¬Attached n n.id

/-- **The invariant**: off what may differ, the scene is the document; what was shown is. -/
structure Agrees (M : Measure) (isFrame : String → Bool) (differs : String → Prop) (s : State) :
    Prop where
  distinct : s.board.Distinct isFrame
  shown : Scene.get s.shown = s.board.node
  agree : ∀ i, ¬differs i → Scene.get s.scene i = s.board.node i
  nodup : (s.scene.map Node.id).Nodup
  good : ∀ n ∈ s.scene, n.Good isFrame
  laid : ∀ n ∈ s.scene, laid M n = n
  hands : ∀ n ∈ s.drag.elim [] Drag.origins, n.Good isFrame
  label : ∀ e, s.editing = some e → isFrame e.1 = false
  arrow : ∀ place fromId, s.drag = some (.arrow place fromId) → fromId ≠ some ""

/-- What a commit of some ids leaves alone. -/
structure Commits (ids : List String) (s t : State) : Prop where
  drag : t.drag = s.drag
  editing : t.editing = s.editing.filter fun e => (Scene.get t.scene e.1).isSome
  scene : ∀ i, i ∉ ids → Scene.get t.scene i = Scene.get s.scene i
  board : ∀ i, i ∉ ids → t.board.node i = s.board.node i

section Agreement

variable {M : Measure} {isFrame : String → Bool} {differs differs' : String → Prop} {s t : State}
  {n : Node} {ids : List String} {i : String}

theorem laid_laid (n : Node) : laid M (laid M n) = laid M n := by
  by_cases hk : n.kind = .text
  · have hlaid : laid M n = { n with h := M.height n.text (n.size.getD 16) (max 8 (n.w - 16)) } :=
      if_pos hk
    rw [hlaid, laid, if_pos hk]
  · have hlaid : laid M n = n := if_neg hk
    rw [hlaid, hlaid]

theorem Node.Good.laid (h : n.Good isFrame) : (laid M n).Good isFrame := by
  refine ⟨h.proper.laid M, ?_, ?_, ?_⟩
  · rw [laid_id]
    exact h.named
  · rw [laid_id, laid_kind]
    exact h.kind
  · rw [laid_id, attached_laid]
    exact h.own

theorem mem_of_get {scene : List Node} (h : Scene.get scene i = some n) : n ∈ scene ∧ n.id = i :=
  mem_of_lookup h

theorem Agrees.mono (h : Agrees M isFrame differs s) (hd : ∀ i, differs i → differs' i) :
    Agrees M isFrame differs' s where
  distinct := h.distinct
  shown := h.shown
  agree i hi := h.agree i fun hdiffers => hi (hd i hdiffers)
  nodup := h.nodup
  good := h.good
  laid := h.laid
  hands := h.hands
  label := h.label
  arrow := h.arrow

/-- Nodes put into the document one after another. -/
theorem node_putAll {set : List Node} {doc : Board} (h : doc.Distinct isFrame)
    (hset : ∀ n ∈ set, n.Good isFrame) :
    (set.foldl Board.put doc).node = overlay set doc.node ∧
      (set.foldl Board.put doc).Distinct isFrame := by
  induction set generalizing doc with
  | nil => exact ⟨rfl, h⟩
  | cons n set ih =>
    have hn := hset n List.mem_cons_self
    rw [List.foldl_cons, overlay_cons, ← node_put h hn.proper hn.kind]
    exact ih (distinct_put h hn.kind) fun m hm => hset m (List.mem_cons_of_mem _ hm)

theorem node_removeAll {doc : Board} (h : doc.Distinct isFrame) (ids : List String) :
    (∀ i, (ids.foldl Board.remove doc).node i = if i ∈ ids then none else doc.node i) ∧
      (ids.foldl Board.remove doc).Distinct isFrame := by
  induction ids generalizing doc with
  | nil => exact ⟨fun _ => (if_neg List.not_mem_nil).symm, h⟩
  | cons id ids ih =>
    obtain ⟨hnode, hdistinct⟩ := ih (distinct_remove h id)
    refine ⟨fun i => ?_, hdistinct⟩
    rw [List.foldl_cons, hnode, node_remove h]
    by_cases hi : i = id
    · subst hi
      rw [if_pos rfl, if_pos List.mem_cons_self]
      split
      · rfl
      · rfl
    · rw [if_neg hi]
      by_cases hmem : i ∈ ids
      · rw [if_pos hmem, if_pos (List.mem_cons_of_mem _ hmem)]
      · rw [if_neg hmem, if_neg (List.not_mem_cons_of_ne_of_not_mem hi hmem)]

theorem get_forget {shown : List Node} {ids : List String} :
    Scene.get (shown.filter fun n => n.id ∉ ids) i =
      if i ∈ ids then none else Scene.get shown i := by
  rw [Scene.get, lookup, List.find?_filter]
  split
  · next hi =>
    rw [List.find?_eq_none]
    intro n _
    simp only [decide_eq_true_eq, not_and]
    rintro hout rfl
    exact hout hi
  · next hi =>
    rw [Scene.get, lookup]
    congr 1
    funext n
    by_cases hn : n.id = i
    · simp [hn, hi]
    · simp [hn]

/-- The nodes of a scene as it is set over. -/
theorem good_overlay {set : List Node} (h : Agrees M isFrame differs s)
    (hset : ∀ n ∈ set, n.Good isFrame)
    (hn : overlay (set.map (laid M)) (Scene.get s.scene) i = some n) :
    n.Good isFrame ∧ laid M n = n := by
  obtain ⟨hmem, -⟩ | hget := overlay_cases hn
  · obtain ⟨m, hm, rfl⟩ := List.mem_map.mp hmem
    exact ⟨(hset m hm).laid, laid_laid m⟩
  · have hmem := (mem_of_get hget).1
    exact ⟨h.good n hmem, h.laid n hmem⟩

/-- **A commit of nodes** brings the three together on what it sets. -/
theorem Agrees.commit_set {set : List Node} (h : Agrees M isFrame differs s)
    (hset : ∀ n ∈ set, n.Good isFrame) :
    Agrees M isFrame (fun i => differs i ∧ i ∉ set.map Node.id) (s.commit M ⟨set, []⟩) ∧
      Commits (set.map Node.id) s (s.commit M ⟨set, []⟩) := by
  have hids : (set.map (Canvas.laid M)).map Node.id = set.map Node.id := by
    rw [List.map_map]
    exact List.map_congr_left fun n _ => laid_id M n
  have hgood : ∀ n ∈ set.map (Canvas.laid M), n.Good isFrame := by
    intro n hn
    obtain ⟨m, hm, rfl⟩ := List.mem_map.mp hn
    exact (hset m hm).laid
  obtain ⟨hnode, hdistinct⟩ := node_putAll h.distinct hgood
  have hscene : (s.commit M ⟨set, []⟩).scene = set.foldl (Scene.set M) s.scene := by
    rw [State.commit]
    split
    · rfl
    · rfl
  have hget : Scene.get (s.commit M ⟨set, []⟩).scene =
      overlay (set.map (Canvas.laid M)) (Scene.get s.scene) := by
    rw [hscene, get_setAll]
  have hboard : (s.commit M ⟨set, []⟩).board = (set.map (Canvas.laid M)).foldl Board.put s.board := by
    rw [State.commit]
    split
    · next hempty =>
      rw [Bool.and_eq_true, List.isEmpty_iff] at hempty
      have hnone : set = [] := hempty.1
      subst hnone
      rfl
    · rfl
  have hshown : Scene.get (s.commit M ⟨set, []⟩).shown =
      overlay (set.map (Canvas.laid M)) (Scene.get s.shown) := by
    rw [State.commit]
    split
    · next hempty =>
      rw [Bool.and_eq_true, List.isEmpty_iff] at hempty
      have hnone : set = [] := hempty.1
      subst hnone
      rfl
    · funext i
      change Scene.get (((set.map (Canvas.laid M)).foldl Scene.keep s.shown).filter fun n =>
        n.id ∉ ([] : List String)) i = _
      rw [get_forget, if_neg List.not_mem_nil, get_keepAll]
  have hdrag : (s.commit M ⟨set, []⟩).drag = s.drag := by
    rw [State.commit]
    split
    · rfl
    · rfl
  have hediting : (s.commit M ⟨set, []⟩).editing = s.editing.filter fun e =>
      (Scene.get (s.commit M ⟨set, []⟩).scene e.1).isSome := by
    rw [hscene, State.commit]
    split
    · rfl
    · rfl
  have hnodup : ((s.commit M ⟨set, []⟩).scene.map Node.id).Nodup := by
    rw [hscene, setAll_eq]
    exact nodup_keepAll _ h.nodup
  have hmem : ∀ n ∈ (s.commit M ⟨set, []⟩).scene, n.Good isFrame ∧ Canvas.laid M n = n := by
    intro n hn
    have hn : Scene.get (s.commit M ⟨set, []⟩).scene n.id = some n := lookup_eq_some hnodup hn
    rw [hget] at hn
    exact good_overlay h hset hn
  refine ⟨⟨hboard ▸ hdistinct, ?_, fun i hi => ?_, hnodup, fun n hn => (hmem n hn).1,
    fun n hn => (hmem n hn).2, hdrag ▸ h.hands, fun e he => ?_, hdrag ▸ h.arrow⟩, hdrag, hediting, fun i hi => ?_,
    fun i hi => ?_⟩
  · rw [hshown, hboard, hnode, h.shown]
  · rw [hget, hboard, hnode]
    refine overlay_congr ?_
    rw [hids]
    by_cases hmem : i ∈ set.map Node.id
    · exact .inl hmem
    · exact .inr (h.agree i fun hd => hi ⟨hd, hmem⟩)
  · rw [hediting] at he
    exact h.label e (Option.filter_eq_some_iff.mp he).1
  · rw [hget, overlay_of_not_mem (hids ▸ hi)]
  · rw [hboard, hnode, overlay_of_not_mem (hids ▸ hi)]

/-- **A commit that deletes** does so in all three, where every connector goes with its shape. -/
theorem Agrees.commit_delete (h : Agrees M isFrame differs s) (htogether : Together s.scene ids) :
    Agrees M isFrame (fun i => differs i ∧ i ∉ ids) (s.commit M ⟨[], ids⟩) ∧
      Commits ids s (s.commit M ⟨[], ids⟩) := by
  obtain ⟨hnode, hdistinct⟩ := node_removeAll h.distinct ids
  have hscene : (s.commit M ⟨[], ids⟩).scene = ids.foldl (Scene.delete M) s.scene := by
    rw [State.commit]
    split
    · rfl
    · rfl
  have hget : ∀ i, Scene.get (s.commit M ⟨[], ids⟩).scene i =
      if i ∈ ids then none else Scene.get s.scene i := by
    intro i
    rw [hscene, get_deleteAll M htogether]
  have hboard : (s.commit M ⟨[], ids⟩).board = ids.foldl Board.remove s.board := by
    rw [State.commit]
    split
    · next hempty =>
      rw [Bool.and_eq_true, List.isEmpty_iff, List.isEmpty_iff] at hempty
      have hnone : ids = [] := hempty.2
      rw [hnone]
      rfl
    · rfl
  have hshown : ∀ i, Scene.get (s.commit M ⟨[], ids⟩).shown i =
      if i ∈ ids then none else Scene.get s.shown i := by
    intro i
    rw [State.commit]
    split
    · next hempty =>
      rw [Bool.and_eq_true, List.isEmpty_iff, List.isEmpty_iff] at hempty
      have hnone : ids = [] := hempty.2
      rw [hnone, if_neg List.not_mem_nil]
      rfl
    · exact get_forget
  have hdrag : (s.commit M ⟨[], ids⟩).drag = s.drag := by
    rw [State.commit]
    split
    · rfl
    · rfl
  have hediting : (s.commit M ⟨[], ids⟩).editing = s.editing.filter fun e =>
      (Scene.get (s.commit M ⟨[], ids⟩).scene e.1).isSome := by
    rw [hscene, State.commit]
    split
    · rfl
    · rfl
  have hnodup : ((s.commit M ⟨[], ids⟩).scene.map Node.id).Nodup := by
    rw [hscene]
    exact nodup_deleteAll M ids h.nodup
  have hmem : ∀ n ∈ (s.commit M ⟨[], ids⟩).scene, n ∈ s.scene := by
    intro n hn
    have hn := lookup_eq_some hnodup hn
    have hn : Scene.get (s.commit M ⟨[], ids⟩).scene n.id = some n := hn
    rw [hget] at hn
    split at hn
    · cases hn
    · exact (mem_of_get hn).1
  refine ⟨⟨hboard ▸ hdistinct, ?_, fun i hi => ?_, hnodup, fun n hn => h.good n (hmem n hn),
    fun n hn => h.laid n (hmem n hn), hdrag ▸ h.hands, fun e he => ?_, hdrag ▸ h.arrow⟩, hdrag, hediting,
    fun i hi => ?_, fun i hi => ?_⟩
  · funext i
    rw [hshown, hboard, hnode, h.shown]
  · rw [hget, hboard, hnode]
    split
    · rfl
    · next hout => exact h.agree i fun hd => hi ⟨hd, hout⟩
  · rw [hediting] at he
    exact h.label e (Option.filter_eq_some_iff.mp he).1
  · rw [hget, if_neg hi]
  · rw [hboard, hnode, if_neg hi]

/-- What is in hand after a commit was so before, or was committed. -/
theorem Commits.inHand (h : Commits ids s t) (hi : s.InHand i) (hout : i ∉ ids) : t.InHand i := by
  obtain hdragged | ⟨⟨text, hediting⟩, n, hn, hk⟩ := hi
  · rw [State.Dragged, ← h.drag] at hdragged
    exact .inl hdragged
  · rw [← h.scene i hout] at hn
    refine .inr ⟨⟨text, ?_⟩, n, hn, hk⟩
    rw [h.editing, hediting, Option.filter_some, if_pos]
    rw [hn]
    rfl

/-- **A commit keeps the invariant.** -/
theorem Agrees.committed (h : Agrees M isFrame (fun i => s.InHand i ∧ i ∉ ids) t)
    (hc : Commits ids s t) : Agrees M isFrame t.InHand t :=
  h.mono fun _ hi => hc.inHand hi.1 hi.2

/-- No arrow hangs on a blank label that is being edited. -/
def State.Closes (s : State) : Prop :=
  ∀ id text n, s.editing = some (id, text) → Scene.get s.scene id = some n → n.kind = .text →
    isBlank text = true → ∀ a ∈ s.scene, ¬Attached a id

theorem Agrees.shut (h : Agrees M isFrame differs s) :
    Agrees M isFrame differs { s with editing := none } where
  distinct := h.distinct
  shown := h.shown
  agree := h.agree
  nodup := h.nodup
  good := h.good
  laid := h.laid
  hands := h.hands
  label := nofun
  arrow := h.arrow

theorem Node.Good.with_text (h : n.Good isFrame) (hk : n.kind ≠ .frame) (text : String) :
    Node.Good isFrame { n with text } :=
  ⟨{ h.proper with frame := fun heq => absurd heq hk }, h.named, h.kind, h.own⟩

/-- **The text editor closed**: what is typed is committed. -/
theorem Agrees.stopEditing (h : Agrees M isFrame differs s) (hcloses : s.Closes) :
    Agrees M isFrame (fun i => differs i ∧ ¬s.Typed i) (s.stopEditing M) ∧
      (s.stopEditing M).editing = none ∧ (s.stopEditing M).drag = s.drag ∧
      (∀ i, (∀ text, s.editing ≠ some (i, text)) →
        Scene.get (s.stopEditing M).scene i = Scene.get s.scene i ∧
        (s.stopEditing M).board.node i = s.board.node i) := by
  rw [State.stopEditing]
  cases hediting : s.editing with
  | none =>
    refine ⟨h.mono fun i hi => ⟨hi, ?_⟩, hediting, rfl, fun _ _ => ⟨rfl, rfl⟩⟩
    rintro ⟨⟨text, heq⟩, -⟩
    exact absurd (hediting.symm.trans heq) nofun
  | some e =>
    obtain ⟨id, text⟩ := e
    have hleft : ∀ {ids : List String} {t : State}, ids = [id] →
        Agrees M isFrame (fun i => differs i ∧ i ∉ ids) t ∧
          Commits ids { s with editing := none } t →
        Agrees M isFrame (fun i => differs i ∧ ¬s.Typed i) t ∧ t.editing = none ∧
          t.drag = s.drag ∧ ∀ i, (∀ text', some (id, text) ≠ some (i, text')) →
            Scene.get t.scene i = Scene.get s.scene i ∧ t.board.node i = s.board.node i := by
      rintro ids t rfl ⟨hagrees, hcommits⟩
      refine ⟨hagrees.mono fun i hi => ⟨hi.1, ?_⟩, ?_, hcommits.drag, fun i hi => ?_⟩
      · rintro ⟨⟨text', heq⟩, -⟩
        rw [hediting, Option.some.injEq, Prod.mk.injEq] at heq
        exact hi.2 (heq.1 ▸ List.mem_cons_self)
      · rw [hcommits.editing]
        rfl
      · have hout : i ∉ [id] := fun hmem => hi text (by rw [List.mem_singleton.mp hmem])
        exact ⟨hcommits.scene i hout, hcommits.board i hout⟩
    have hsame : (∀ n, Scene.get s.scene id = some n → n.kind ≠ .text) →
        Agrees M isFrame (fun i => differs i ∧ ¬s.Typed i) { s with editing := none } := by
      refine fun hnone => h.shut.mono fun i hi => ⟨hi, ?_⟩
      rintro ⟨⟨text', heq⟩, n, hn, hk⟩
      rw [hediting, Option.some.injEq, Prod.mk.injEq] at heq
      exact hnone n (heq.1 ▸ hn) hk
    dsimp only
    cases hget : Scene.get s.scene id with
    | none =>
      exact ⟨hsame fun n hn => absurd (hget.symm.trans hn) nofun, rfl, rfl, fun _ _ => ⟨rfl, rfl⟩⟩
    | some n =>
      obtain ⟨hmem, hid⟩ := mem_of_get hget
      have hshape : n.kind ≠ .frame := by
        have hk := (h.good n hmem).kind
        rw [hid, h.label _ hediting] at hk
        intro heq
        rw [decide_eq_true heq] at hk
        exact absurd hk (by decide)
      dsimp only
      split
      · next hblank =>
        refine hleft rfl (h.shut.commit_delete ?_)
        intro a ha id' hid' hatt
        rw [List.mem_singleton.mp hid'] at hatt
        exact absurd hatt (hcloses id text n hediting hget hblank.1 hblank.2 a ha)
      · split
        · refine hleft ?_ (h.shut.commit_set fun m hm => ?_)
          · rw [List.map_singleton]
            exact congrArg (fun i => [i]) hid
          · rw [List.mem_singleton.mp hm]
            exact (h.good n hmem).with_text hshape text
        · next hsameText =>
          refine ⟨hsame fun m hm => ?_, rfl, rfl, fun _ _ => ⟨rfl, rfl⟩⟩
          rw [hget, Option.some.injEq] at hm
          exact fun heq => hsameText (.inl (hm ▸ heq))

end Agreement

/-! ### Nodes made from nodes -/

section Made

variable {isFrame : String → Bool} {n : Node}

theorem le_round {k : ℤ} {v : ℚ} (h : k ≤ v) : k ≤ round v := by
  have hfloor : k * 100 ≤ ⌊v * 100 + 1 / 2⌋ := by
    refine Int.le_floor.mpr ?_
    push_cast
    linarith
  have hcast : ((k * 100 : ℤ) : ℚ) ≤ ⌊v * 100 + 1 / 2⌋ := Int.cast_le.mpr hfloor
  rw [round, le_div_iff₀ (by norm_num)]
  push_cast at hcast
  exact hcast

theorem least_le_round {kind : Kind} {v : ℚ} (h : least kind ≤ v) : least kind ≤ round v := by
  rw [least] at h ⊢
  split
  · next hk =>
    rw [if_pos hk] at h
    exact_mod_cast le_round (k := 0) (by exact_mod_cast h)
  · next hk =>
    rw [if_neg hk] at h
    exact_mod_cast le_round (k := 1) (by exact_mod_cast h)

theorem least_le {kind : Kind} {v : ℚ} (h : 1 ≤ v) : least kind ≤ v := by
  rw [least]
  split
  · linarith
  · exact h

theorem Node.Good.moved (h : n.Good isFrame) (dx dy : ℚ) : (moved n dx dy).Good isFrame := by
  refine ⟨⟨h.proper.wide, h.proper.high, h.proper.frame, h.proper.name, h.proper.size,
    fun hk => ?_, fun hk => ?_, h.proper.named⟩, h.named, h.kind, h.own⟩
  · obtain ⟨hfrom, hto, hstart, hend⟩ := h.proper.ends hk
    refine ⟨hfrom, hto, ?_, ?_⟩
    · exact (congrArg (Option.map fun p => movePoint p dx dy) hstart)
    · exact (congrArg (Option.map fun p => movePoint p dx dy) hend)
  · exact congrArg (List.map fun p => movePoint p dx dy) (h.proper.points hk)

theorem Node.Good.resized (h : n.Good isFrame) (handle : Handle) (dx dy : ℚ) :
    (resized n handle dx dy).Good isFrame := by
  have hmax : ∀ v : ℚ, least n.kind ≤ max 20 v := fun v =>
    least_le ((by norm_num : (1 : ℚ) ≤ 20).trans (le_max_left 20 v))
  refine ⟨⟨least_le_round ?_, least_le_round ?_, h.proper.frame, h.proper.name, h.proper.size,
    h.proper.ends, h.proper.points, h.proper.named⟩, h.named, h.kind, h.own⟩
  · split
    · exact hmax _
    · split
      · exact hmax _
      · exact h.proper.wide
  · split
    · exact hmax _
    · split
      · exact hmax _
      · exact h.proper.high

/-- A frame found on the board has a name. -/
theorem frameAt_ne {scene : List Node} (h : ∀ n ∈ scene, n.id ≠ "") (p : Point) :
    Scene.frameAt scene p ≠ some "" := by
  intro heq
  obtain ⟨n, hn, hid⟩ := Option.map_eq_some_iff.mp heq
  obtain ⟨hlast, -⟩ := Option.filter_eq_some_iff.mp hn
  have hmem := (List.mem_filter.mp (List.mem_of_getLast? hlast)).1
  exact h n (List.mem_mergeSort.mp hmem) hid

theorem Node.Good.dropped {scene origin : List Node} (h : n.Good isFrame)
    (hscene : ∀ n ∈ scene, n.id ≠ "") : (dropped scene origin n).Good isFrame := by
  rw [Canvas.dropped]
  split
  · next hk =>
    exact ⟨{ h.proper with
      frame := fun heq => absurd heq hk.1
      named := ⟨frameAt_ne hscene _, h.proper.named.2⟩ }, h.named, h.kind, h.own⟩
  · exact h

@[simp]
theorem moved_id (n : Node) (dx dy : ℚ) : (moved n dx dy).id = n.id :=
  rfl

@[simp]
theorem dropped_id (scene origin : List Node) (n : Node) : (dropped scene origin n).id = n.id := by
  rw [dropped]
  split
  · rfl
  · rfl

section Carried

variable {scene l : List Node} {m : Node}

theorem mem_keep (hl : ∀ n ∈ l, n ∈ scene) (hm : m ∈ scene) : ∀ n ∈ Scene.keep l m, n ∈ scene := by
  intro n hn
  obtain rfl | ⟨_, _, rfl⟩ | hn := mem_upsert hn
  · exact hm
  · exact hm
  · exact hl n hn

theorem mem_carryInner (left : List Node) (hl : ∀ n ∈ l, n ∈ scene) (hleft : ∀ n ∈ left, n ∈ scene) :
    ∀ n ∈ left.foldl (carryInner m) l, n ∈ scene := by
  induction left generalizing l with
  | nil => exact hl
  | cons inner left ih =>
    refine ih ?_ fun n hn => hleft n (List.mem_cons_of_mem _ hn)
    rw [carryInner]
    split
    · exact mem_keep hl (hleft inner List.mem_cons_self)
    · exact hl

theorem mem_carry (hl : ∀ n ∈ l, n ∈ scene) (id : String) : ∀ n ∈ carry scene l id, n ∈ scene := by
  rw [carry]
  cases hget : Scene.get scene id with
  | none => exact hl
  | some m =>
    have hmem := (mem_of_get hget).1
    dsimp only
    split
    · exact hl
    · split
      · exact mem_carryInner _ (mem_keep hl hmem) fun n hn => List.mem_mergeSort.mp hn
      · exact mem_keep hl hmem

theorem mem_carryAll (left : List String) (hl : ∀ n ∈ l, n ∈ scene) :
    ∀ n ∈ left.foldl (carry scene) l, n ∈ scene := by
  induction left generalizing l with
  | nil => exact hl
  | cons id left ih =>
    rw [List.foldl_cons]
    exact ih (mem_carry hl id)

/-- What a move carries is in the scene. -/
theorem mem_originsOf (selection : List String) : ∀ n ∈ originsOf scene selection, n ∈ scene := by
  rw [originsOf]
  exact mem_carryAll selection fun n hn => absurd hn List.not_mem_nil

end Carried

end Made

/-! ### Conditions -/

/-- A document that can be shown as it is: ids and ends named and of one node each, labels as high
as they are laid out. -/
structure Board.Readable (M : Measure) (doc : Board) : Prop where
  distinct : (doc.frames.map Frame.id ++ doc.shapes.map Shape.id).Nodup
  named : ∀ id ∈ doc.frames.map Frame.id ++ doc.shapes.map Shape.id, id ≠ ""
  ends : ∀ s ∈ doc.shapes, s.frame ≠ some "" ∧ s.fromId ≠ some "" ∧ s.toId ≠ some "" ∧
    s.fromId ≠ some s.id ∧ s.toId ≠ some s.id
  laid : ∀ n ∈ fromDoc doc, laid M n = n

namespace State

variable (s : State)

/-- A document with what is held as it is. -/
def Spares (doc : Board) : Prop :=
  ∀ id ∈ s.held, lookup Frame.id doc.frames id = lookup Frame.id s.board.frames id ∧
    lookup Shape.id doc.shapes id = lookup Shape.id s.board.shapes id

/-- No arrow has an end at what a document no longer has. -/
def Unhooked (doc : Board) : Prop :=
  ∀ a, a ∈ fromDoc doc ∨ a ∈ s.scene ∧ a.id ∈ s.held →
    ∀ id, (s.board.node id).isSome → doc.node id = none → ¬Attached a id

/-- The gesture in progress has changed nothing that is not committed. -/
def Still : Prop :=
  ∀ i, s.Dragged i → Scene.get s.scene i = s.board.node i

/-- An id that no one has. -/
structure Fresh (id : String) : Prop where
  named : id ≠ ""
  scene : Scene.get s.scene id = none
  frames : id ∉ s.board.frames.map Frame.id
  shapes : id ∉ s.board.shapes.map Shape.id
  held : id ∉ s.held
  arrow : ∀ place fromId, s.drag = some (.arrow place fromId) → fromId ≠ some id

end State

/-- What is asked of an event. -/
def Event.Meets (M : Measure) (s : State) : Event → Prop
  | load doc => doc.Readable M ∧ s.Spares doc
  | receive doc => doc.Readable M ∧ s.Spares doc ∧ s.Unhooked doc
  | press (.text id _) => s.Still ∧ s.Closes ∧ s.Fresh id
  | press _ => s.Still ∧ s.Closes
  | release r => s.Fresh r.id ∧ s.Closes
  | doubleClick _ id _ => s.Fresh id ∧ s.Closes
  | escape => s.editing = none → s.Still
  | closeText => s.Closes
  | op .deleteSelection =>
    Together s.scene (s.selection.filter fun id => !(Scene.get s.scene id).any Node.locked)
  | op (.setLocked true) => ∀ n ∈ s.selected, n.kind ≠ .frame
  | op (.duplicate ids) => ids.Nodup ∧ ∀ id ∈ ids, s.Fresh id
  | _ => True

/-- The ids a new node is given. -/
def Event.news : Event → List String
  | press (.text id _) => [id]
  | release r => [r.id]
  | doubleClick _ id _ => [id]
  | op (.duplicate ids) => ids
  | _ => []

/-- What an event may write: what is in the user's hands or selected, and what is new. -/
@[grind =]
def Event.names (s : State) (e : Event) : List String :=
  s.held ++ s.selection ++ e.news

section Steps

variable {M : Measure} {isFrame : String → Bool} {differs : String → Prop} {s t : State} {n : Node}
  {ids : List String} {id i : String}

theorem Agrees.select (h : Agrees M isFrame s.InHand s) (ids : List String) :
    Agrees M isFrame (s.select ids).InHand (s.select ids) :=
  ⟨h.distinct, h.shown, h.agree, h.nodup, h.good, h.laid, h.hands, h.label, h.arrow⟩

/-- A new id is of whatever is made of it. -/
theorem Agrees.fresh (h : Agrees M isFrame differs s) (hf : s.Fresh id) (b : Bool) :
    Agrees M (Function.update isFrame id b) differs s := by
  have hgood : ∀ n : Node, n.id ≠ id → n.Good isFrame →
      n.Good (Function.update isFrame id b) := by
    intro n hne hn
    refine ⟨hn.proper, hn.named, ?_, hn.own⟩
    rw [Function.update_of_ne hne]
    exact hn.kind
  refine ⟨⟨fun f hmem => ?_, fun sh hmem => ?_, h.distinct.nodupFrames, h.distinct.nodupShapes⟩,
    h.shown, h.agree, h.nodup, fun n hn => hgood n ?_ (h.good n hn), h.laid,
    fun n hn => hgood n ?_ (h.hands n hn), fun e he => ?_, h.arrow⟩
  · have hne : f.id ≠ id := by
      rintro rfl
      exact hf.frames (List.mem_map_of_mem hmem)
    rw [Function.update_of_ne hne]
    exact h.distinct.frames f hmem
  · have hne : sh.id ≠ id := by
      rintro rfl
      exact hf.shapes (List.mem_map_of_mem hmem)
    rw [Function.update_of_ne hne]
    exact h.distinct.shapes sh hmem
  · rintro rfl
    exact lookup_eq_none.mp hf.scene (List.mem_map_of_mem hn)
  · rintro rfl
    exact hf.held (List.mem_append_right _ (List.mem_map_of_mem hn))
  · rw [Function.update_of_ne]
    · exact h.label e he
    · rintro rfl
      refine hf.held (List.mem_append_left _ ?_)
      rw [he]
      exact List.mem_cons_self

/-- **An edit**: what it sets may have differed. -/
theorem Agrees.edit {set : List Node}
    (h : Agrees M isFrame (fun i => s.InHand i ∨ i ∈ set.map Node.id) s)
    (hset : ∀ n ∈ set, n.Good isFrame) :
    Agrees M isFrame (s.commit M ⟨set, []⟩).InHand (s.commit M ⟨set, []⟩) ∧
      Commits (set.map Node.id) s (s.commit M ⟨set, []⟩) := by
  obtain ⟨hagrees, hcommits⟩ := h.commit_set hset
  exact ⟨(hagrees.mono fun i hi => ⟨hi.1.resolve_right hi.2, hi.2⟩).committed hcommits, hcommits⟩

theorem Agrees.set (h : Agrees M isFrame s.InHand s) (set : List Node)
    (hset : ∀ n ∈ set, n.Good isFrame) :
    Agrees M isFrame (s.commit M ⟨set, []⟩).InHand (s.commit M ⟨set, []⟩) ∧
      Commits (set.map Node.id) s (s.commit M ⟨set, []⟩) :=
  (h.mono fun _ hi => .inl hi).edit hset

theorem mem_held : i ∈ s.held ↔
    (∃ text, s.editing = some (i, text)) ∨ i ∈ (s.drag.elim [] Drag.origins).map Node.id := by
  rw [State.held, List.mem_append]
  refine or_congr_left ?_
  cases s.editing with
  | none => simp
  | some e => simp [Prod.ext_iff, eq_comm]

theorem mem_selected (h : n ∈ s.selected) : n ∈ s.scene ∧ n.id ∈ s.selection := by
  obtain ⟨id, hid, hget⟩ := List.mem_filterMap.mp h
  obtain ⟨hmem, rfl⟩ := mem_of_get hget
  exact ⟨hmem, hid⟩

/-- Nodes that are selected, changed and set. -/
theorem Agrees.commitSet (h : Agrees M isFrame s.InHand s) {set : List Node}
    (hset : ∀ n ∈ set, n.Good isFrame ∧ n.id ∈ s.selection) :
    Agrees M isFrame (s.commitSet M set).InHand (s.commitSet M set) ∧
      ∀ i, i ∉ s.selection → (s.commitSet M set).board.node i = s.board.node i := by
  rw [State.commitSet]
  split
  · exact ⟨h, fun _ _ => rfl⟩
  · obtain ⟨hagrees, hcommits⟩ := h.set set fun n hn => (hset n hn).1
    refine ⟨hagrees, fun i hi => hcommits.board i fun hmem => ?_⟩
    obtain ⟨n, hn, rfl⟩ := List.mem_map.mp hmem
    exact hi (hset n hn).2

/-- Closing the text editor leaves in hand what the gesture holds. -/
theorem Agrees.closed (h : Agrees M isFrame s.InHand s) (hcloses : s.Closes) :
    Agrees M isFrame (s.stopEditing M).InHand (s.stopEditing M) ∧
      (∀ i, i ∉ s.held → (s.stopEditing M).board.node i = s.board.node i) := by
  obtain ⟨hagrees, -, hdrag, hrest⟩ := h.stopEditing hcloses
  refine ⟨hagrees.mono fun i hi => ?_, fun i hi => (hrest i fun text heq => hi ?_).2⟩
  · have hdragged := hi.1.resolve_right hi.2
    rw [State.Dragged, ← hdrag] at hdragged
    exact .inl hdragged
  · rw [State.held, heq]
    exact List.mem_append_left _ List.mem_cons_self

theorem Agrees.startEditing (h : Agrees M isFrame s.InHand s) (hcloses : s.Closes) (id : String) :
    Agrees M isFrame (s.startEditing M id).InHand (s.startEditing M id) ∧
      (∀ i, i ∉ s.held → (s.startEditing M id).board.node i = s.board.node i) := by
  rw [State.startEditing]
  cases hget : Scene.get s.scene id with
  | none => exact ⟨h, fun _ _ => rfl⟩
  | some n =>
    dsimp only
    split
    · exact ⟨h, fun _ _ => rfl⟩
    · next hkind =>
      split
      · exact ⟨h, fun _ _ => rfl⟩
      · obtain ⟨hagrees, hrest⟩ := h.closed hcloses
        obtain ⟨-, hnone, -, -⟩ := h.stopEditing hcloses
        obtain ⟨hmem, rfl⟩ := mem_of_get hget
        refine ⟨?_, hrest⟩
        have hdiffers : ∀ i, (s.stopEditing M).InHand i →
            State.InHand { s.stopEditing M with editing := some (n.id, n.text) } i := by
          rintro i (hi | ⟨⟨text, heq⟩, -⟩)
          · exact .inl hi
          · exact absurd (hnone.symm.trans heq) nofun
        have hagrees := hagrees.mono hdiffers
        refine ⟨hagrees.distinct, hagrees.shown, hagrees.agree, hagrees.nodup, hagrees.good,
          hagrees.laid, hagrees.hands, ?_, hagrees.arrow⟩
        rintro e heq
        cases heq
        rw [(h.good n hmem).kind]
        exact decide_eq_false fun heq => hkind (.inr (.inr (.inl heq)))

end Steps

/-! ### Documents shown -/

section Showing

variable {M : Measure} {isFrame : String → Bool} {s t : State} {doc : Board} {n m : Node}
  {i : String}

/-- One node is all that is set of its id. -/
theorem overlay_eq {l : List Node} {f : String → Option Node} (hi : i ∈ l.map Node.id)
    (h : ∀ n ∈ l, n.id = i → n = m) : overlay l f i = some m := by
  induction l generalizing f with
  | nil => cases hi
  | cons n l ih =>
    rw [overlay_cons]
    by_cases hmem : i ∈ l.map Node.id
    · exact ih hmem fun a ha => h a (List.mem_cons_of_mem _ ha)
    · have hid : i = n.id := (List.mem_cons.mp hi).resolve_right hmem
      rw [overlay_of_not_mem hmem, hid, Function.update_self, h n List.mem_cons_self hid.symm]

theorem Board.Readable.nodup (h : doc.Readable M) :
    (doc.frames.map Frame.id).Nodup ∧ (doc.shapes.map Shape.id).Nodup ∧
      ∀ id ∈ doc.frames.map Frame.id, id ∉ doc.shapes.map Shape.id := by
  obtain ⟨hframes, hshapes, hapart⟩ := List.nodup_append.mp h.distinct
  exact ⟨hframes, hshapes, fun id hf hs => hapart id hf id hs rfl⟩

/-- A document that can be read has ids of one node each. -/
theorem Board.Readable.toDistinct (h : doc.Readable M) :
    doc.Distinct fun i => decide (i ∈ doc.frames.map Frame.id) where
  frames _ hf := decide_eq_true (List.mem_map_of_mem hf)
  shapes s hs := decide_eq_false fun hf => h.nodup.2.2 s.id hf (List.mem_map_of_mem hs)
  nodupFrames := h.nodup.1
  nodupShapes := h.nodup.2.1

theorem Board.Readable.mem_fromDoc (h : doc.Readable M) :
    n ∈ fromDoc doc ↔ doc.node n.id = some n := by
  rw [← lookup_fromDoc h.toDistinct]
  exact ⟨fun hn => lookup_eq_some (nodup_fromDoc h.toDistinct) hn, fun hn => (mem_of_lookup hn).1⟩

theorem Board.Readable.id_of_node (h : doc.Readable M) (hn : doc.node i = some n) : n.id = i := by
  rw [← lookup_fromDoc h.toDistinct] at hn
  exact (mem_of_lookup hn).2

/-- What is read of a document it can hold. -/
theorem Board.Readable.good (h : doc.Readable M) (hd : doc.Distinct isFrame)
    (hn : n ∈ fromDoc doc) : n.Good isFrame := by
  obtain hn | hn := List.mem_append.mp hn
  · obtain ⟨f, hf, rfl⟩ := List.mem_map.mp hn
    refine ⟨proper_frameNode f, h.named f.id (List.mem_append_left _ (List.mem_map_of_mem hf)),
      (hd.frames f hf).trans (decide_eq_true rfl).symm, fun hatt => ?_⟩
    exact absurd hatt.1 (by change Kind.frame ≠ Kind.arrow; decide)
  · obtain ⟨sh, hsh, hnode⟩ := List.mem_filterMap.mp hn
    obtain ⟨hframe, hfrom, hto, hownFrom, hownTo⟩ := h.ends sh hsh
    have hid := id_of_nodeOf hnode
    refine ⟨proper_of_nodeOf hnode hframe hfrom hto, ?_, ?_, ?_⟩
    · rw [hid]
      exact h.named sh.id (List.mem_append_right _ (List.mem_map_of_mem hsh))
    · rw [hid, hd.shapes sh hsh]
      exact (decide_eq_false (kind_of_nodeOf hnode)).symm
    · rw [hid]
      obtain ⟨kind, -, rfl⟩ := Option.map_eq_some_iff.mp hnode
      rintro ⟨hk, -, hends⟩
      dsimp only at hk hends
      rw [if_pos hk, if_pos hk] at hends
      exact hends.elim hownFrom hownTo

theorem node_of_spares (h : s.Spares doc) (hi : i ∈ s.held) : doc.node i = s.board.node i := by
  obtain ⟨hframes, hshapes⟩ := h i hi
  rw [Board.node, Board.node, hframes, hshapes]

theorem held_of_inHand (h : s.InHand i) : i ∈ s.held := by
  obtain hdragged | ⟨⟨text, hediting⟩, -⟩ := h
  · refine List.mem_append_right _ ?_
    rw [State.Dragged] at hdragged
    split at hdragged
    · next origin hdrag =>
      rw [hdrag]
      exact hdragged
    · next origin hdrag =>
      rw [hdrag]
      exact List.mem_singleton.mpr hdragged
    · exact hdragged.elim
  · refine List.mem_append_left _ ?_
    rw [hediting]
    exact List.mem_cons_self

/-- **A document shown**: the scene is the document's off what is held, and what is held is as it
was, or the document's. -/
theorem Agrees.shows (h : Agrees M isFrame s.InHand s) (hread : doc.Readable M)
    (hspares : s.Spares doc) (hboard : t.board = doc) (hshown : Scene.get t.shown = doc.node)
    (hdrag : t.drag = s.drag) (hediting : ∀ e, t.editing = some e → s.editing = some e)
    (hstays : ∀ e, s.editing = some e → (Scene.get t.scene e.1).isSome → t.editing = some e)
    (hnodup : (t.scene.map Node.id).Nodup)
    (hfree : ∀ i, i ∉ s.held → Scene.get t.scene i = doc.node i)
    (hheld : ∀ i, i ∈ s.held → Scene.get t.scene i = Scene.get s.scene i ∨
      Scene.get t.scene i = doc.node i) :
    ∃ isFrame, Agrees M isFrame t.InHand t := by
  let kinds : String → Bool := fun i =>
    if i ∈ s.held then isFrame i else decide (i ∈ doc.frames.map Frame.id)
  have hkept : ∀ i, i ∈ s.held → kinds i = isFrame i := fun i hi => if_pos hi
  obtain ⟨hframes, hshapes, hapart⟩ := hread.nodup
  have hdistinct : doc.Distinct kinds := by
    refine ⟨fun f hf => ?_, fun sh hsh => ?_, hframes, hshapes⟩
    · by_cases hmem : f.id ∈ s.held
      · have hold : lookup Frame.id s.board.frames f.id = some f := by
          rw [← (hspares f.id hmem).1]
          exact lookup_eq_some hframes hf
        rw [hkept f.id hmem]
        exact h.distinct.frames f (mem_of_lookup hold).1
      · exact (if_neg hmem).trans (decide_eq_true (List.mem_map_of_mem hf))
    · by_cases hmem : sh.id ∈ s.held
      · have hold : lookup Shape.id s.board.shapes sh.id = some sh := by
          rw [← (hspares sh.id hmem).2]
          exact lookup_eq_some hshapes hsh
        rw [hkept sh.id hmem]
        exact h.distinct.shapes sh (mem_of_lookup hold).1
      · exact (if_neg hmem).trans (decide_eq_false fun hf =>
          hapart sh.id hf (List.mem_map_of_mem hsh))
  have hgood : ∀ n : Node, n.id ∈ s.held → n.Good isFrame → n.Good kinds := fun n hn hgood =>
    ⟨hgood.proper, hgood.named, (hkept n.id hn).trans hgood.kind, hgood.own⟩
  have hnodes : ∀ n ∈ t.scene, n.id ∈ s.held ∧ n ∈ s.scene ∨ n ∈ fromDoc doc := by
    intro n hn
    have hget : Scene.get t.scene n.id = some n := lookup_eq_some hnodup hn
    by_cases hmem : n.id ∈ s.held
    · obtain hsame | hdoc := hheld n.id hmem
      · exact .inl ⟨hmem, (mem_of_get (hsame ▸ hget)).1⟩
      · exact .inr (hread.mem_fromDoc.mpr (hdoc ▸ hget))
    · exact .inr (hread.mem_fromDoc.mpr (hfree n.id hmem ▸ hget))
  refine ⟨kinds, hboard ▸ hdistinct, hboard ▸ hshown, fun i hi => ?_, hnodup, fun n hn => ?_,
    fun n hn => ?_, fun n hn => ?_, fun e he => ?_, hdrag ▸ h.arrow⟩
  · rw [hboard]
    by_cases hmem : i ∈ s.held
    · obtain hsame | hdoc := hheld i hmem
      · have hfree : ¬s.InHand i := by
          rintro (hdragged | ⟨⟨text, heq⟩, n, hn, hk⟩)
          · rw [State.Dragged, ← hdrag] at hdragged
            exact hi (.inl hdragged)
          · rw [← hsame] at hn
            exact hi (.inr ⟨⟨text, hstays _ heq (by rw [hn]; rfl)⟩, n, hn, hk⟩)
        rw [hsame, h.agree i hfree, node_of_spares hspares hmem]
      · exact hdoc
    · exact hfree i hmem
  · obtain ⟨hmem, hn⟩ | hn := hnodes n hn
    · exact hgood n hmem (h.good n hn)
    · exact hread.good hdistinct hn
  · obtain ⟨-, hn⟩ | hn := hnodes n hn
    · exact h.laid n hn
    · exact hread.laid n hn
  · rw [hdrag] at hn
    exact hgood n (List.mem_append_right _ (List.mem_map_of_mem hn)) (h.hands n hn)
  · have hold := hediting e he
    refine (hkept e.1 (List.mem_append_left _ ?_)).trans (h.label e hold)
    rw [hold]
    exact List.mem_cons_self

/-- The nodes of what is held. -/
theorem lookup_held : lookup Node.id (s.held.filterMap (Scene.get s.scene)) i =
    if i ∈ s.held then Scene.get s.scene i else none := by
  cases hkeep : lookup Node.id (s.held.filterMap (Scene.get s.scene)) i with
  | none =>
    split
    · next hi =>
      cases hget : Scene.get s.scene i with
      | none => rfl
      | some m =>
        have hm := List.mem_map_of_mem (f := Node.id) (List.mem_filterMap.mpr ⟨i, hi, hget⟩)
        rw [(mem_of_get hget).2] at hm
        exact absurd hm (lookup_eq_none.mp hkeep)
    · rfl
  | some m =>
    obtain ⟨hmem, hid⟩ := mem_of_lookup hkeep
    obtain ⟨id, hin, hget⟩ := List.mem_filterMap.mp hmem
    have hsame : id = i := (mem_of_get hget).2.symm.trans hid
    subst hsame
    rw [if_pos hin, hget]

theorem map_laid {l : List Node} (h : ∀ n ∈ l, laid M n = n) : l.map (laid M) = l :=
  (List.map_congr_left h).trans (List.map_id' l)

/-- **A load**, by id: what is held and was there stays. -/
theorem Agrees.get_load (h : Agrees M isFrame s.InHand s) (hread : doc.Readable M) (i : String) :
    Scene.get (s.load M (fromDoc doc)).scene i =
      if i ∈ s.held then (Scene.get s.scene i).or (doc.node i) else doc.node i := by
  let keep := s.held.filterMap (Scene.get s.scene)
  let merged : Node → Node := fun n => (lookup Node.id keep n.id).getD n
  let first := ((fromDoc doc).map merged).foldl (Scene.set M) []
  have hkeep : ∀ n ∈ keep, Canvas.laid M n = n := by
    intro n hn
    obtain ⟨id, -, hget⟩ := List.mem_filterMap.mp hn
    exact h.laid n (mem_of_get hget).1
  have hmerged : ∀ n ∈ fromDoc doc, (merged n).id = n.id ∧ Canvas.laid M (merged n) = merged n := by
    intro n hn
    change ((lookup Node.id keep n.id).getD n).id = n.id ∧
      Canvas.laid M ((lookup Node.id keep n.id).getD n) = (lookup Node.id keep n.id).getD n
    cases hget : lookup Node.id keep n.id with
    | none => exact ⟨rfl, hread.laid n hn⟩
    | some m => exact ⟨(mem_of_lookup hget).2, hkeep m (mem_of_lookup hget).1⟩
  have hids : ((fromDoc doc).map merged).map Node.id = (fromDoc doc).map Node.id := by
    rw [List.map_map]
    exact List.map_congr_left fun n hn => (hmerged n hn).1
  have hlaid : ((fromDoc doc).map merged).map (Canvas.laid M) = (fromDoc doc).map merged := by
    refine map_laid fun n hn => ?_
    obtain ⟨m, hm, rfl⟩ := List.mem_map.mp hn
    exact (hmerged m hm).2
  have hfirst : Scene.get first i = (doc.node i).map merged := by
    change Scene.get (((fromDoc doc).map merged).foldl (Scene.set M) []) i = _
    rw [get_setAll, hlaid, ← lookup_fromDoc hread.toDistinct]
    cases hnode : lookup Node.id (fromDoc doc) i with
    | none =>
      rw [overlay_of_not_mem (hids ▸ lookup_eq_none.mp hnode)]
      rfl
    | some n =>
      obtain ⟨hn, rfl⟩ := mem_of_lookup hnode
      refine overlay_eq (hids ▸ List.mem_map_of_mem hn) fun m hm hid => ?_
      obtain ⟨k, hk, rfl⟩ := List.mem_map.mp hm
      rw [(hmerged k hk).1] at hid
      have hsame : lookup Node.id (fromDoc doc) k.id = some k :=
        lookup_eq_some (nodup_fromDoc hread.toDistinct) hk
      rw [hid, hnode, Option.some.injEq] at hsame
      rw [hsame]
  change Scene.get ((keep.filter fun n => (Scene.get first n.id).isNone).foldl (Scene.set M) first)
    i = _
  have hrest : ∀ n ∈ keep.filter fun n => (Scene.get first n.id).isNone, Canvas.laid M n = n :=
    fun n hn => hkeep n (List.mem_filter.mp hn).1
  rw [get_setAll, map_laid hrest]
  have hlookup : lookup Node.id keep i = if i ∈ s.held then Scene.get s.scene i else none :=
    lookup_held
  by_cases hin : i ∈ s.held
  · rw [if_pos hin] at hlookup ⊢
    cases hget : Scene.get s.scene i with
    | none =>
      rw [hget] at hlookup
      rw [overlay_of_not_mem, hfirst, Option.none_or]
      · cases hnode : doc.node i with
        | none => rfl
        | some n =>
          change some ((lookup Node.id keep n.id).getD n) = some n
          rw [hread.id_of_node hnode, hlookup]
          rfl
      · intro hmem
        obtain ⟨n, hn, hid⟩ := List.mem_map.mp hmem
        exact lookup_eq_none.mp hlookup (hid ▸ List.mem_map_of_mem (List.mem_filter.mp hn).1)
    | some m =>
      rw [hget] at hlookup
      rw [Option.some_or]
      have hsame : ∀ n ∈ keep, n.id = i → n = m := by
        intro n hn hid
        obtain ⟨id, -, hn⟩ := List.mem_filterMap.mp hn
        have heq : id = i := (mem_of_get hn).2.symm.trans hid
        rw [heq, hget, Option.some.injEq] at hn
        exact hn.symm
      cases hnode : doc.node i with
      | none =>
        rw [hnode] at hfirst
        refine overlay_eq ?_ fun n hn => hsame n (List.mem_filter.mp hn).1
        obtain ⟨hm, hid⟩ := mem_of_lookup hlookup
        refine List.mem_map.mpr ⟨m, List.mem_filter.mpr ⟨hm, ?_⟩, hid⟩
        rw [hid, hfirst]
        rfl
      | some n =>
        rw [hnode] at hfirst
        have hout : i ∉ (keep.filter fun n => (Scene.get first n.id).isNone).map Node.id := by
          intro hmem
          obtain ⟨k, hk, hid⟩ := List.mem_map.mp hmem
          have hnone := (List.mem_filter.mp hk).2
          rw [hid, hfirst] at hnone
          cases hnone
        rw [overlay_of_not_mem hout, hfirst]
        change some ((lookup Node.id keep n.id).getD n) = some m
        rw [hread.id_of_node hnode, hlookup]
        rfl
  · rw [if_neg hin] at hlookup ⊢
    rw [overlay_of_not_mem, hfirst]
    · cases hnode : doc.node i with
      | none => rfl
      | some n =>
        change some ((lookup Node.id keep n.id).getD n) = some n
        rw [hread.id_of_node hnode, hlookup]
        rfl
    · intro hmem
      obtain ⟨n, hn, hid⟩ := List.mem_map.mp hmem
      exact lookup_eq_none.mp hlookup (hid ▸ List.mem_map_of_mem (List.mem_filter.mp hn).1)

/-- What differs from what was shown, and what is no longer there. -/
def State.news (s : State) (doc : Board) : Change where
  set := (fromDoc doc).filter fun n => (Scene.get s.shown n.id).all fun before => !sameNode before n
  deleted := (s.shown.map Node.id).filter fun id =>
    (Scene.get ((fromDoc doc).foldl Scene.keep []) id).isNone

theorem get_next (hread : doc.Readable M) :
    Scene.get ((fromDoc doc).foldl Scene.keep []) = doc.node := by
  funext i
  rw [get_keepAll, overlay_nodup (nodup_fromDoc hread.toDistinct), lookup_fromDoc hread.toDistinct]
  exact Option.or_none

/-- **A remote change**, by id: what is held stays, the rest is the document's. -/
theorem Agrees.get_remote (h : Agrees M isFrame s.InHand s) (hread : doc.Readable M)
    (hunhooked : s.Unhooked doc) (i : String) :
    Scene.get (s.applyRemote M (s.news doc)).scene i =
      if i ∈ s.held then Scene.get s.scene i else doc.node i := by
  let set := (s.news doc).set.filter fun n => n.id ∉ s.held
  let deleted := (s.news doc).deleted.filter fun id => id ∉ s.held
  let middle := set.foldl (Scene.set M) s.scene
  have hsub : ∀ n ∈ set, n ∈ fromDoc doc ∧ n.id ∉ s.held := by
    intro n hn
    obtain ⟨hn, hfree⟩ := List.mem_filter.mp hn
    exact ⟨(List.mem_filter.mp hn).1, of_decide_eq_true hfree⟩
  have hlaid : set.map (Canvas.laid M) = set := map_laid fun n hn => hread.laid n (hsub n hn).1
  have hmiddle : Scene.get middle = overlay set (Scene.get s.scene) := by
    change Scene.get (set.foldl (Scene.set M) s.scene) = _
    rw [get_setAll, hlaid]
  have hnodup : (middle.map Node.id).Nodup := by
    change ((set.foldl (Scene.set M) s.scene).map Node.id).Nodup
    rw [setAll_eq]
    exact nodup_keepAll _ h.nodup
  have hold : ∀ j, j ∉ s.held → Scene.get s.scene j = s.board.node j := fun j hj =>
    h.agree j fun hin => hj (held_of_inHand hin)
  have hheld : ∀ j, j ∈ s.held → Scene.get middle j = Scene.get s.scene j := by
    intro j hj
    rw [hmiddle, overlay_of_not_mem]
    intro hmem
    obtain ⟨n, hn, rfl⟩ := List.mem_map.mp hmem
    exact (hsub n hn).2 hj
  have hthere : ∀ j n, j ∉ s.held → doc.node j = some n → Scene.get middle j = some n := by
    intro j n hj hnode
    have hid := hread.id_of_node hnode
    have hn : n ∈ fromDoc doc := hread.mem_fromDoc.mpr (hid ▸ hnode)
    rw [hmiddle]
    by_cases hmem : j ∈ set.map Node.id
    · refine overlay_eq hmem fun m hm hmid => ?_
      have hm := hread.mem_fromDoc.mp (hsub m hm).1
      rw [hmid, hnode, Option.some.injEq] at hm
      exact hm.symm
    · rw [overlay_of_not_mem hmem, hold j hj, ← h.shown]
      -- What is not set was shown as it is.
      by_contra hne
      refine hmem (List.mem_map.mpr ⟨n, List.mem_filter.mpr ⟨List.mem_filter.mpr ⟨hn, ?_⟩, ?_⟩, hid⟩)
      · rw [hid]
        cases hshown : Scene.get s.shown j with
        | none => rfl
        | some before =>
          have hdiffers : before ≠ n := fun heq => hne (heq ▸ hshown)
          simpa [sameNode] using hdiffers
      · rw [hid]
        exact decide_eq_true hj
  have hgone : ∀ j, j ∉ s.held → doc.node j = none → Scene.get middle j = Scene.get s.scene j := by
    intro j _ hnode
    rw [hmiddle, overlay_of_not_mem]
    intro hmem
    obtain ⟨n, hn, rfl⟩ := List.mem_map.mp hmem
    exact absurd (hnode.symm.trans (hread.mem_fromDoc.mp (hsub n hn).1)) (by simp)
  have hdeleted : ∀ j, j ∈ deleted ↔ j ∉ s.held ∧ (s.board.node j).isSome ∧ doc.node j = none := by
    intro j
    have hshown : j ∈ s.shown.map Node.id ↔ (s.board.node j).isSome := by
      rw [← h.shown, Scene.get, Option.isSome_iff_ne_none, Ne, lookup_eq_none, not_not]
    change j ∈ ((s.shown.map Node.id).filter fun id =>
      (Scene.get ((fromDoc doc).foldl Scene.keep []) id).isNone).filter (fun id => id ∉ s.held) ↔ _
    rw [List.mem_filter, List.mem_filter, hshown, get_next hread, decide_eq_true_eq,
      Option.isNone_iff_eq_none]
    exact ⟨fun hj => ⟨hj.2, hj.1⟩, fun hj => ⟨hj.2, hj.1⟩⟩
  have htogether : Together middle deleted := by
    intro a ha id hid hatt
    obtain ⟨hfree, hsome, hnone⟩ := (hdeleted id).mp hid
    have hget : Scene.get middle a.id = some a := lookup_eq_some hnodup ha
    by_cases hin : a.id ∈ s.held
    · rw [hheld a.id hin] at hget
      exact absurd hatt (hunhooked a (.inr ⟨(mem_of_get hget).1, hin⟩) id hsome hnone)
    · cases hnode : doc.node a.id with
      | some n =>
        rw [hthere a.id n hin hnode, Option.some.injEq] at hget
        have ha : a ∈ fromDoc doc := hread.mem_fromDoc.mpr (hget ▸ hnode)
        exact absurd hatt (hunhooked a (.inl ha) id hsome hnone)
      | none =>
        rw [hgone a.id hin hnode] at hget
        have hboard : s.board.node a.id = some a := (hold a.id hin).symm.trans hget
        refine ⟨(hdeleted a.id).mpr ⟨hin, by rw [hboard]; rfl, hnode⟩, ?_⟩
        rintro rfl
        exact (h.good a (mem_of_get hget).1).own hatt
  change Scene.get (deleted.foldl (Scene.delete M) middle) i = _
  rw [get_deleteAll M htogether]
  by_cases hin : i ∈ s.held
  · rw [if_pos hin, if_neg fun hmem => ((hdeleted i).mp hmem).1 hin, hheld i hin]
  · rw [if_neg hin]
    cases hnode : doc.node i with
    | some n =>
      rw [if_neg, hthere i n hin hnode]
      intro hmem
      exact absurd (hnode.symm.trans ((hdeleted i).mp hmem).2.2) (by simp)
    | none =>
      split
      · rfl
      · next hout =>
        rw [hgone i hin hnode, hold i hin]
        by_contra hne
        exact hout ((hdeleted i).mpr ⟨hin, Option.isSome_iff_ne_none.mpr hne, hnode⟩)

/-- The replica after a document is shown, but for the selection. -/
def State.shownDoc (M : Measure) (s : State) (loading : Bool) (doc : Board) : State :=
  let s : State := { s with board := doc }
  let next := (fromDoc doc).foldl Scene.keep []
  { (if loading then s.load M (fromDoc doc)
      else if (s.news doc).set.isEmpty && (s.news doc).deleted.isEmpty then s
      else s.applyRemote M (s.news doc)) with shown := next }

theorem Agrees.shownDoc (h : Agrees M isFrame s.InHand s) (loading : Bool)
    (hread : doc.Readable M) (hspares : s.Spares doc)
    (hunhooked : loading = false → s.Unhooked doc) :
    (∃ isFrame, Agrees M isFrame (s.shownDoc M loading doc).InHand (s.shownDoc M loading doc)) ∧
      (s.shownDoc M loading doc).board = doc := by
  have hpruned : ∀ (scene : List Node) (e : String × String),
      s.editing.filter (fun e => (Scene.get scene e.1).isSome) = some e → s.editing = some e :=
    fun scene e he => (Option.filter_eq_some_iff.mp he).1
  have hopen : ∀ (scene : List Node) (e : String × String), s.editing = some e →
      (Scene.get scene e.1).isSome → s.editing.filter (fun e => (Scene.get scene e.1).isSome) =
        some e := fun scene e he hsome => Option.filter_eq_some_iff.mpr ⟨he, hsome⟩
  cases loading with
  | true =>
    have hget := h.get_load hread
    refine ⟨h.shows hread hspares rfl (get_next hread) rfl (hpruned _) (hopen _) ?_
      (fun i hi => (hget i).trans (if_neg hi)) fun i hi => ?_, rfl⟩
    · change ((List.foldl (Scene.set M) (List.foldl (Scene.set M) [] _) _).map Node.id).Nodup
      rw [setAll_eq, setAll_eq]
      exact nodup_keepAll _ (nodup_keepAll _ List.nodup_nil)
    · have hget := (hget i).trans (if_pos hi)
      cases hold : Scene.get s.scene i with
      | none =>
        rw [hold] at hget
        exact .inr hget
      | some n =>
        rw [hold] at hget
        exact .inl hget
  | false =>
    have hget := h.get_remote hread (hunhooked rfl)
    rw [State.shownDoc]
    dsimp only
    rw [if_neg Bool.false_ne_true]
    split
    · next hempty =>
      refine ⟨h.shows hread hspares rfl (get_next hread) rfl (fun _ he => he) (fun _ he _ => he)
        h.nodup (fun i hi => ?_) fun _ _ => .inl rfl, rfl⟩
      rw [Bool.and_eq_true, List.isEmpty_iff, List.isEmpty_iff] at hempty
      obtain ⟨hset, hdeleted⟩ := hempty
      have hset : (s.news doc).set = [] := hset
      have hdeleted : (s.news doc).deleted = [] := hdeleted
      have hget := (hget i).trans (if_neg hi)
      rw [State.applyRemote, hset, hdeleted] at hget
      exact hget
    · refine ⟨h.shows hread hspares rfl (get_next hread) rfl (hpruned _) (hopen _) ?_
        (fun i hi => (hget i).trans (if_neg hi)) fun i hi => .inl ((hget i).trans (if_pos hi)), rfl⟩
      change ((List.foldl (Scene.delete M) (List.foldl (Scene.set M) s.scene _) _).map
        Node.id).Nodup
      rw [setAll_eq]
      exact nodup_deleteAll M _ (nodup_keepAll _ h.nodup)

/-- **A document shown** keeps the invariant, and is the replica's. -/
theorem Agrees.showDoc (h : Agrees M isFrame s.InHand s) (loading : Bool)
    (hread : doc.Readable M) (hspares : s.Spares doc)
    (hunhooked : loading = false → s.Unhooked doc) :
    (∃ isFrame, Agrees M isFrame (s.showDoc M loading doc).InHand (s.showDoc M loading doc)) ∧
      (s.showDoc M loading doc).board = doc := by
  obtain ⟨⟨kinds, hagrees⟩, hboard⟩ := h.shownDoc loading hread hspares hunhooked
  have hshow : s.showDoc M loading doc = s.shownDoc M loading doc ∨
      ∃ selection docSelection, s.showDoc M loading doc =
        { s.shownDoc M loading doc with selection, docSelection } := by
    let next := (fromDoc doc).foldl Scene.keep []
    let selection := doc.selection.filter fun id => (Scene.get next id).isSome
    have hunfold : s.showDoc M loading doc =
        if selection = (s.shownDoc M loading doc).docSelection then s.shownDoc M loading doc
        else { s.shownDoc M loading doc with docSelection := selection }.select selection := rfl
    rw [hunfold]
    split
    · exact .inl rfl
    · exact .inr ⟨_, _, rfl⟩
  obtain hshow | ⟨selection, docSelection, hshow⟩ := hshow
  · rw [hshow]
    exact ⟨⟨kinds, hagrees⟩, hboard⟩
  · rw [hshow]
    exact ⟨⟨kinds, hagrees.distinct, hagrees.shown, hagrees.agree, hagrees.nodup, hagrees.good,
      hagrees.laid, hagrees.hands, hagrees.label, hagrees.arrow⟩, hboard⟩

end Showing

end Canvas

end LocalSpace
