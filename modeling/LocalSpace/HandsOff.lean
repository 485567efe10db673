import LocalSpace.Agreement
import LocalSpace.Library.Listings

/-!
# Hands off, the board shows its document

Every gesture's start, course and ending keeps the invariant, and so does every operation. A gesture
that is dropped after it has moved something leaves the scene as it was dragged (`escape_leaves`);
where none is, nothing remote reaches what is held, and every connector goes with its shape, the
board shows its document whenever the user's hands are off it (`hands_off`).
-/

namespace LocalSpace

namespace Canvas

open Whiteboard (Kind)

/-! ### Steps -/

section Stepping

variable {M : Measure} {isFrame : String → Bool} {s t : State} {n : Node} {i id : String}

theorem Agrees.ids (h : Agrees M isFrame s.InHand s) : ∀ n ∈ s.scene, n.id ≠ "" :=
  fun n hn => (h.good n hn).named

/-- The gesture is dropped where it has changed nothing. -/
theorem Agrees.still (h : Agrees M isFrame s.InHand s) (hstill : s.Still) :
    Agrees M isFrame s.Typed s where
  distinct := h.distinct
  shown := h.shown
  agree i hi := by
    by_cases hdragged : s.Dragged i
    · exact hstill i hdragged
    · exact h.agree i fun hin => hin.elim hdragged hi
  nodup := h.nodup
  good := h.good
  laid := h.laid
  hands := h.hands
  label := h.label
  arrow := h.arrow

/-- The pointer comes down: the text editor closes, and nothing is in hand. -/
theorem Agrees.pressed (h : Agrees M isFrame s.InHand s) (hstill : s.Still) (hcloses : s.Closes) :
    Agrees M isFrame (fun _ => False) (s.stopEditing M) ∧ (s.stopEditing M).editing = none ∧
      ∀ i, i ∉ s.held → (s.stopEditing M).board.node i = s.board.node i := by
  obtain ⟨hagrees, hnone, -, -⟩ := (h.still hstill).stopEditing hcloses
  exact ⟨hagrees.mono fun i hi => hi.2 hi.1, hnone, (h.closed hcloses).2⟩

/-- A gesture begins with nothing changed. -/
theorem Agrees.grip (h : Agrees M isFrame (fun _ => False) s) {drag : Drag}
    (hhands : ∀ n ∈ drag.origins, n.Good isFrame)
    (harrow : ∀ place fromId, drag = .arrow place fromId → fromId ≠ some "") :
    Agrees M isFrame (State.InHand { s with drag := some drag }) { s with drag := some drag } :=
  ⟨h.distinct, h.shown, fun i _ => h.agree i id, h.nodup, h.good, h.laid, hhands, h.label,
    fun place fromId heq => harrow place fromId (Option.some.inj heq)⟩

theorem Agrees.reselect (h : Agrees M isFrame (fun _ => False) s) (selection : List String) :
    Agrees M isFrame (fun _ => False) { s with selection } :=
  ⟨h.distinct, h.shown, h.agree, h.nodup, h.good, h.laid, h.hands, h.label, h.arrow⟩

theorem joins_ne (h : ∀ n ∈ s.scene, n.id ≠ "") {hit : Option String} {p : String → Bool}
    (hp : ∀ id, p id = true → joins s.scene id = true) : hit.filter p ≠ some "" := by
  intro heq
  have hjoins := hp "" (Option.filter_eq_some_iff.mp heq).2
  rw [joins] at hjoins
  cases hget : Scene.get s.scene "" with
  | none =>
    rw [hget] at hjoins
    cases hjoins
  | some n =>
    obtain ⟨hmem, hid⟩ := mem_of_get hget
    exact h n hmem hid

/-- A new node can be held. -/
theorem good_createNode (h : ∀ n ∈ s.scene, n.id ≠ "") {kind : Kind} {place size : Point}
    (hid : id ≠ "") (hkind : isFrame id = decide (kind = .frame)) (hw : least kind ≤ size.1)
    (hh : least kind ≤ size.2) : (s.createNode kind id place size).Good isFrame := by
  refine ⟨⟨hw, hh, fun hk => ?_, ?_, ?_, fun _ => ⟨rfl, rfl, rfl, rfl⟩, fun _ => rfl,
    ?_, nofun, nofun⟩, hid, hkind, ?_⟩
  · change kind = .frame at hk
    subst hk
    exact ⟨rfl, rfl, rfl, rfl, rfl⟩
  · change (if kind = .frame then _ else none : Option String).isSome = decide (kind = .frame)
    split
    · next hk => exact (decide_eq_true hk).symm
    · next hk => exact (decide_eq_false hk).symm
  · change (if kind = .text then _ else none : Option ℚ).isSome = decide (kind = .text)
    split
    · next hk => exact (decide_eq_true hk).symm
    · next hk => exact (decide_eq_false hk).symm
  · change (if kind = .frame then none else _) ≠ some ""
    split
    · exact nofun
    · exact frameAt_ne h place
  · rintro ⟨-, -, hends⟩
    exact hends.elim nofun nofun

theorem least_defaultSize (kind : Kind) :
    least kind ≤ (defaultSize kind).1 ∧ least kind ≤ (defaultSize kind).2 := by
  cases kind <;> exact ⟨by decide, by decide⟩

/-- A new node, selected and its text edited. -/
theorem Agrees.made (h : Agrees M isFrame s.InHand s) (hcloses : s.Closes) (hheld : id ∉ s.held)
    (hid : id ≠ "") {kind : Kind} (hkind : isFrame id = decide (kind = .frame))
    (place : Point) {size : Point} (hw : least kind ≤ size.1) (hh : least kind ≤ size.2) :
    (Agrees M isFrame ((s.create M kind id place size).select [id]).InHand
        ((s.create M kind id place size).select [id]) ∧
      ∀ i, i ≠ id → (s.create M kind id place size).board.node i = s.board.node i) ∧
    Agrees M isFrame (((s.create M kind id place size).select [id]).startEditing M id).InHand
        (((s.create M kind id place size).select [id]).startEditing M id) ∧
      ∀ i, i ∉ s.held → i ≠ id →
        (((s.create M kind id place size).select [id]).startEditing M id).board.node i =
          s.board.node i := by
  have hnode : (s.createNode kind id place size).Good isFrame :=
    good_createNode h.ids hid hkind hw hh
  obtain ⟨hagrees, hcommits⟩ := h.set [s.createNode kind id place size]
    fun n hn => List.mem_singleton.mp hn ▸ hnode
  have hboard : ∀ i, i ≠ id → (s.create M kind id place size).board.node i = s.board.node i :=
    fun i hi => hcommits.board i fun hmem => hi (List.mem_singleton.mp hmem)
  have hselected := hagrees.select [id]
  have hopen : ∀ e, (s.create M kind id place size).editing = some e → s.editing = some e := by
    intro e he
    have he := hcommits.editing.symm.trans he
    exact (Option.filter_eq_some_iff.mp he).1
  have hnext : ((s.create M kind id place size).select [id]).Closes := by
    intro id' text n he hget hk hblank a ha
    have hwas := hopen _ he
    have hne : id' ≠ id := by
      rintro rfl
      exact hheld (mem_held.mpr (.inl ⟨text, hwas⟩))
    have hget : Scene.get s.scene id' = some n :=
      (hcommits.scene id' fun hmem => hne (List.mem_singleton.mp hmem)).symm.trans hget
    have ha : a ∈ Scene.set M s.scene (s.createNode kind id place size) := ha
    have hnew : ¬Attached (Canvas.laid M (s.createNode kind id place size)) id' := by
      rw [attached_laid]
      rintro ⟨-, -, hends⟩
      exact hends.elim nofun nofun
    obtain rfl | ⟨_, _, rfl⟩ | ha := mem_upsert ha
    · exact hnew
    · exact hnew
    · exact hcloses id' text n hwas hget hk hblank a ha
  obtain ⟨hstarted, hkept⟩ := hselected.startEditing hnext id
  refine ⟨⟨hselected, hboard⟩, hstarted, fun i hi hne => (hkept i fun hmem => hi ?_).trans
    (hboard i hne)⟩
  have hdrag : ((s.create M kind id place size).select [id]).drag = s.drag := hcommits.drag
  obtain ⟨text, he⟩ | hmem := mem_held.mp hmem
  · exact mem_held.mpr (.inl ⟨text, hopen _ he⟩)
  · exact mem_held.mpr (.inr (hdrag ▸ hmem))

/-- **A gesture begun**, but for a new text. -/
theorem Agrees.begin (h : Agrees M isFrame (fun _ => False) s) (on : Press)
    (hon : ∀ id place, on ≠ .text id place) :
    Agrees M isFrame (on.begin M s).InHand (on.begin M s) ∧ (on.begin M s).board = s.board := by
  have hidle : Agrees M isFrame s.InHand s := h.mono fun _ => False.elim
  have hnone : ∀ n ∈ ([] : List Node), n.Good isFrame := fun n hn => absurd hn List.not_mem_nil
  cases on with
  | hand => exact ⟨h.grip hnone nofun, rfl⟩
  | ink => exact ⟨h.grip hnone nofun, rfl⟩
  | shape tool place => exact ⟨h.grip hnone nofun, rfl⟩
  | text id place => exact absurd rfl (hon id place)
  | arrow target place =>
    refine ⟨h.grip hnone ?_, rfl⟩
    rintro _ _ heq
    cases heq
    exact joins_ne hidle.ids fun _ hp => hp
  | empty shift =>
    cases shift with
    | true => exact ⟨h.grip hnone nofun, rfl⟩
    | false => exact ⟨(h.reselect _).grip hnone nofun, rfl⟩
  | handle handle =>
    rw [Press.begin]
    split
    · next n only hnodes hselection =>
      split
      · exact ⟨hidle, rfl⟩
      · refine ⟨h.grip (fun m hm => ?_) nofun, rfl⟩
        have hmem : n ∈ s.selected := by
          rw [State.selected, hnodes]
          exact List.mem_cons_self
        rw [List.mem_singleton.mp hm]
        exact h.good n (mem_selected hmem).1
    · exact ⟨hidle, rfl⟩
  | hit target shift =>
    have hgrip : ∀ selection, Agrees M isFrame (State.InHand { s with
        selection, drag := some (.move (originsOf s.scene selection) false) }) { s with
        selection, drag := some (.move (originsOf s.scene selection) false) } := fun selection =>
      (h.reselect selection).grip (fun n hn => h.good n (mem_originsOf selection n hn)) nofun
    rw [Press.begin]
    dsimp only
    split
    · exact ⟨hgrip _, rfl⟩
    · split
      · exact ⟨hgrip _, rfl⟩
      · exact ⟨hgrip _, rfl⟩

/-- **The pointer down.** -/
theorem Agrees.press (h : Agrees M isFrame s.InHand s) (on : Press)
    (hmeets : (Event.press on).Meets M s) :
    (∃ isFrame, Agrees M isFrame (on.apply M s).InHand (on.apply M s)) ∧
      ∀ i, i ∉ (Event.press on).names s → (on.apply M s).board.node i = s.board.node i := by
  have hparts : s.Still ∧ s.Closes := by
    cases on with
    | text id place => exact ⟨hmeets.1, hmeets.2.1⟩
    | _ => exact hmeets
  obtain ⟨hstill, hcloses⟩ := hparts
  have hout : ∀ i, i ∉ (Event.press on).names s → i ∉ s.held := fun i hi hmem =>
    hi (List.mem_append_left _ (List.mem_append_left _ hmem))
  rw [Press.apply]
  by_cases htext : ∃ id place, on = .text id place
  · obtain ⟨id, place, rfl⟩ := htext
    have hfresh := hmeets.2.2
    obtain ⟨-, -, hdrag, -⟩ := h.stopEditing hcloses
    obtain ⟨hagrees, hnone, hkeeps⟩ :=
      (h.fresh hfresh (decide (Kind.text = .frame))).pressed hstill hcloses
    generalize s.stopEditing M = t at hagrees hnone hkeeps hdrag ⊢
    have hheld : ∀ i, i ∈ t.held → i ∈ s.held := by
      intro i hmem
      obtain hmem | hmem := List.mem_append.mp hmem
      · rw [hnone] at hmem
        cases hmem
      · rw [hdrag] at hmem
        exact List.mem_append_right _ hmem
    have hopen : t.Closes := by
      intro id' text n he
      exact absurd (hnone.symm.trans he) nofun
    obtain ⟨hw, hh⟩ := least_defaultSize .text
    have hidle : Agrees M (Function.update isFrame id (decide (Kind.text = .frame))) t.InHand t :=
      hagrees.mono fun _ => False.elim
    obtain ⟨-, hmade, hboard⟩ := hidle.made hopen
      (fun hmem => hfresh.held (hheld id hmem)) hfresh.named (Function.update_self _ _ _) place hw hh
    refine ⟨⟨_, hmade⟩, fun i hi => (hboard i (fun hmem => hout i hi (hheld i hmem)) ?_).trans
      (hkeeps i (hout i hi))⟩
    rintro rfl
    exact hi (List.mem_append_right _ List.mem_cons_self)
  · obtain ⟨hagrees, -, hkeeps⟩ := h.pressed hstill hcloses
    obtain ⟨hbegun, hboard⟩ := hagrees.begin on fun id place heq => htext ⟨id, place, heq⟩
    exact ⟨⟨_, hbegun⟩, fun i hi => by rw [hboard]; exact hkeeps i (hout i hi)⟩

/-- **The scene drawn anew** for what is in hand. -/
theorem Agrees.redrawn (h : Agrees M isFrame s.InHand s) (set : List Node)
    (hset : ∀ n ∈ set, n.Good isFrame) (hboard : t.board = s.board) (hshown : t.shown = s.shown)
    (hscene : t.scene = set.foldl (Scene.set M) s.scene)
    (hhand : ∀ i, i ∈ set.map Node.id → t.InHand i)
    (hstays : ∀ i, i ∉ set.map Node.id → s.InHand i → t.InHand i)
    (hhands : ∀ n ∈ t.drag.elim [] Drag.origins, n.Good isFrame)
    (hlabel : ∀ e, t.editing = some e → isFrame e.1 = false)
    (harrow : ∀ place fromId, t.drag = some (.arrow place fromId) → fromId ≠ some "") :
    Agrees M isFrame t.InHand t := by
  have hids : (set.map (Canvas.laid M)).map Node.id = set.map Node.id := by
    rw [List.map_map]
    exact List.map_congr_left fun n _ => laid_id M n
  have hget : Scene.get t.scene = overlay (set.map (Canvas.laid M)) (Scene.get s.scene) := by
    rw [hscene, get_setAll]
  have hnodup : (t.scene.map Node.id).Nodup := by
    rw [hscene, setAll_eq]
    exact nodup_keepAll _ h.nodup
  have hmem : ∀ n ∈ t.scene, n.Good isFrame ∧ Canvas.laid M n = n := by
    intro n hn
    have hn : Scene.get t.scene n.id = some n := lookup_eq_some hnodup hn
    rw [hget] at hn
    exact good_overlay h hset hn
  refine ⟨hboard ▸ h.distinct, by rw [hshown, hboard, h.shown], fun i hi => ?_, hnodup,
    fun n hn => (hmem n hn).1, fun n hn => (hmem n hn).2, hhands, hlabel, harrow⟩
  have hout : i ∉ set.map Node.id := fun hin => hi (hhand i hin)
  rw [hget, overlay_of_not_mem (hids ▸ hout), hboard]
  exact h.agree i fun hin => hi (hstays i hout hin)

/-- **The pointer followed.** -/
theorem Agrees.follow (h : Agrees M isFrame s.InHand s) (dx dy : ℚ) :
    Agrees M isFrame (follow M s dx dy).InHand (follow M s dx dy) ∧
      (follow M s dx dy).board = s.board := by
  have hands := h.hands
  rw [Canvas.follow]
  cases hdrag : s.drag with
  | none => exact ⟨h, rfl⟩
  | some drag =>
    rw [hdrag] at hands
    cases drag with
    | move origin isMoved =>
      dsimp only
      have hids : (origin.map fun n => moved n dx dy).map Node.id = origin.map Node.id := by
        rw [List.map_map]
        rfl
      refine ⟨h.redrawn (origin.map fun n => moved n dx dy) (fun n hn => ?_) rfl rfl rfl
        (fun i hi => .inl ?_) (fun i hi hin => ?_) hands h.label (by simp), rfl⟩
      · obtain ⟨m, hm, rfl⟩ := List.mem_map.mp hn
        exact (hands m hm).moved dx dy
      · rw [hids] at hi
        exact hi
      · rw [hids] at hi
        obtain hdragged | ⟨hediting, n, hn, hk⟩ := hin
        · rw [State.Dragged, hdrag] at hdragged
          cases isMoved with
          | true => exact absurd hdragged hi
          | false => exact hdragged.elim
        · refine .inr ⟨hediting, n, ?_, hk⟩
          rw [get_setAll, overlay_of_not_mem, hn]
          rw [List.map_map]
          intro hmem
          obtain ⟨m, hm, rfl⟩ := List.mem_map.mp hmem
          rw [Function.comp_apply, laid_id] at hi
          exact hi (hids ▸ List.mem_map_of_mem hm)
    | resize handle origin =>
      dsimp only
      refine ⟨h.redrawn [resized origin handle dx dy] (fun n hn => ?_) rfl rfl rfl
        (fun i hi => .inl ?_) (fun i hi hin => ?_) hands h.label (by simp), rfl⟩
      · rw [List.mem_singleton.mp hn]
        exact (hands origin List.mem_cons_self).resized handle dx dy
      · exact List.mem_singleton.mp hi
      · obtain hdragged | ⟨hediting, n, hn, hk⟩ := hin
        · rw [State.Dragged, hdrag] at hdragged
          exact .inl hdragged
        · refine .inr ⟨hediting, n, ?_, hk⟩
          change Scene.get (Scene.keep s.scene (Canvas.laid M (resized origin handle dx dy))) i = some n
          rw [get_keep, Function.update_of_ne, hn]
          rw [laid_id]
          exact fun heq => hi (heq ▸ List.mem_cons_self)
    | _ => exact ⟨h, rfl⟩

/-- **A label typed.** -/
theorem Agrees.type (h : Agrees M isFrame s.InHand s) (text : String) :
    Agrees M isFrame (s.type M text).InHand (s.type M text) ∧ (s.type M text).board = s.board := by
  rw [State.type]
  cases hediting : s.editing with
  | none => exact ⟨h, rfl⟩
  | some e =>
    obtain ⟨id, before⟩ := e
    have hlabel : ∀ e, some (id, text) = some e → isFrame e.1 = false := by
      rintro e heq
      cases heq
      exact h.label (id, before) hediting
    have hsame : Agrees M isFrame (State.InHand { s with editing := some (id, text) })
        { s with editing := some (id, text) } := by
      refine ⟨h.distinct, h.shown, fun i hi => h.agree i fun hin => hi ?_, h.nodup, h.good, h.laid,
        h.hands, hlabel, h.arrow⟩
      obtain hdragged | ⟨⟨text', heq⟩, hn⟩ := hin
      · exact .inl hdragged
      · rw [hediting, Option.some.injEq, Prod.mk.injEq] at heq
        exact .inr ⟨⟨text, by rw [heq.1]⟩, hn⟩
    dsimp only
    cases hget : Scene.get s.scene id with
    | none => exact ⟨hsame, rfl⟩
    | some n =>
      obtain ⟨hmem, hid⟩ := mem_of_get hget
      dsimp only
      split
      · next hk =>
        refine ⟨h.redrawn [{ n with text }] (fun m hm => ?_) rfl rfl rfl (fun i hi => ?_)
          (fun i hi hin => ?_) h.hands hlabel h.arrow, rfl⟩
        · rw [List.mem_singleton.mp hm]
          exact (h.good n hmem).with_text (by rw [hk]; decide) text
        · have hi : i = n.id := List.mem_singleton.mp hi
          refine .inr ⟨⟨text, by rw [hi, hid]⟩, Canvas.laid M { n with text }, ?_, ?_⟩
          · change Scene.get (Scene.keep s.scene (Canvas.laid M { n with text })) i = _
            rw [get_keep, laid_id, hi, Function.update_self]
          · rw [laid_kind]
            exact hk
        · obtain hdragged | ⟨⟨text', heq⟩, -⟩ := hin
          · exact .inl hdragged
          · rw [hediting, Option.some.injEq, Prod.mk.injEq] at heq
            exact absurd (heq.1 ▸ hid ▸ List.mem_cons_self) hi
      · exact ⟨hsame, rfl⟩

/-- The gesture's drag over: what it may have changed is left. -/
theorem Agrees.letGo (h : Agrees M isFrame s.InHand s) :
    Agrees M isFrame (fun i => State.InHand { s with drag := none } i ∨ s.Dragged i)
      { s with drag := none } :=
  ⟨h.distinct, h.shown, fun i hi => h.agree i fun hin =>
    hin.elim (fun hd => hi (.inr hd)) fun ht => hi (.inl (.inr ht)), h.nodup, h.good, h.laid,
    fun _ hn => absurd hn List.not_mem_nil, h.label, nofun⟩

theorem good_arrowNode {r : Release} {start : Point}
    {fromId toId : Option String} (hid : r.id ≠ "") (hkind : isFrame r.id = false)
    (hfrom : fromId ≠ some "" ∧ fromId ≠ some r.id) (hto : toId ≠ some "" ∧ toId ≠ some r.id) :
    (arrowNode s r start fromId toId).Good isFrame := by
  refine ⟨⟨?_, ?_, nofun, rfl, rfl, fun hk => absurd rfl hk, fun _ => rfl,
    ⟨nofun, hfrom.1, hto.1⟩⟩, hid, hkind, fun hatt => hatt.2.2.elim hfrom.2 hto.2⟩
  · change least .arrow ≤ 0
    decide
  · change least .arrow ≤ 0
    decide

theorem good_inkNode {r : Release} (hid : r.id ≠ "") (hkind : isFrame r.id = false) :
    (inkNode s r).Good isFrame := by
  refine ⟨⟨?_, ?_, nofun, rfl, rfl, fun _ => ⟨rfl, rfl, rfl, rfl⟩, fun hk => absurd rfl hk,
    ⟨nofun, nofun, nofun⟩⟩, hid, hkind, fun hatt => hatt.2.2.elim nofun nofun⟩
  · change least .ink ≤ 0
    decide
  · change least .ink ≤ 0
    decide

end Stepping

/-! ### Endings and operations -/

section Ending

variable {M : Measure} {isFrame : String → Bool} {s t : State} {n : Node} {i id : String}

theorem held_letGo (h : i ∈ State.held { s with drag := none }) : i ∈ s.held := by
  obtain hediting | hmem := mem_held.mp h
  · exact mem_held.mpr (.inl hediting)
  · cases hmem

theorem dragged_mem {drag : Drag} (hdrag : s.drag = some drag) {i : String} (hi : s.Dragged i) :
    i ∈ drag.origins.map Node.id := by
  rw [State.Dragged, hdrag] at hi
  cases drag with
  | move origin isMoved =>
    cases isMoved with
    | true => exact hi
    | false => exact hi.elim
  | resize handle origin => exact List.mem_singleton.mpr hi
  | _ => exact hi.elim

/-- Where a gesture has changed nothing, nothing is in hand after it. -/
theorem Agrees.idle (h : Agrees M isFrame s.InHand s) (hnone : ∀ i, ¬s.Dragged i) :
    Agrees M isFrame (State.InHand { s with drag := none }) { s with drag := none } :=
  h.letGo.mono fun i hi => hi.resolve_right (hnone i)

/-- What was dragged is put down where it was brought. -/
theorem Agrees.putDown (h : Agrees M isFrame s.InHand s) {drag : Drag}
    (hdrag : s.drag = some drag) {set : List Node}
    (hids : set.map Node.id = drag.origins.map Node.id) (hset : ∀ n ∈ set, n.Good isFrame) :
    let t := State.commit M { s with drag := none } ⟨set, []⟩
    (∃ kinds, Agrees M kinds t.InHand t) ∧ ∀ i, i ∉ s.held → t.board.node i = s.board.node i := by
  let s₀ : State := { s with drag := none }
  have hletGo : Agrees M isFrame (fun i => s₀.InHand i ∨ i ∈ set.map Node.id) s₀ :=
    h.letGo.mono fun i hi => hi.imp_right fun hi => hids ▸ dragged_mem hdrag hi
  obtain ⟨hagrees, hcommits⟩ := hletGo.edit hset
  refine ⟨⟨_, hagrees⟩, fun i hi => hcommits.board i fun hmem => hi ?_⟩
  rw [hids] at hmem
  exact mem_held.mpr (.inr (by rw [hdrag]; exact hmem))

/-- **The pointer let go.** -/
theorem Agrees.release (h : Agrees M isFrame s.InHand s) (r : Release) (hfresh : s.Fresh r.id)
    (hcloses : s.Closes) :
    (∃ isFrame, Agrees M isFrame (r.apply M s).InHand (r.apply M s)) ∧
      ∀ i, i ∉ s.held → i ≠ r.id → (r.apply M s).board.node i = s.board.node i := by
  rw [Release.apply]
  cases hdrag : s.drag with
  | none => exact ⟨⟨_, h⟩, fun _ _ _ => rfl⟩
  | some drag =>
    have hands := h.hands
    have harrow := h.arrow
    rw [hdrag] at hands harrow
    have hfree : drag.origins = [] → ∀ i, ¬s.Dragged i := by
      intro hnone i hi
      have hmem := dragged_mem hdrag hi
      rw [hnone] at hmem
      cases hmem
    have hnew : r.id ∉ State.held { s with drag := none } := fun hmem =>
      hfresh.held (held_letGo hmem)
    cases drag with
    | pan => exact ⟨⟨_, h.idle (hfree rfl)⟩, fun _ _ _ => rfl⟩
    | marquee additive =>
      have hidle := h.idle (hfree rfl)
      unfold Release.finish
      dsimp only
      split
      · exact ⟨⟨_, hidle⟩, fun _ _ _ => rfl⟩
      · exact ⟨⟨_, hidle.select _⟩, fun _ _ _ => rfl⟩
    | move origin isMoved =>
      cases isMoved with
      | false =>
        refine ⟨⟨_, h.idle fun i hi => ?_⟩, fun _ _ _ => rfl⟩
        rw [State.Dragged, hdrag] at hi
        exact hi
      | true =>
        have hids : (origin.map fun n => dropped s.scene origin (moved n r.dx r.dy)).map Node.id =
            origin.map Node.id := by
          rw [List.map_map]
          refine List.map_congr_left fun n _ => ?_
          rw [Function.comp_apply, dropped_id, moved_id]
        obtain ⟨hagrees, hboard⟩ := h.putDown hdrag hids fun n hn => by
          obtain ⟨m, hm, rfl⟩ := List.mem_map.mp hn
          exact ((hands m hm).moved r.dx r.dy).dropped h.ids
        exact ⟨hagrees, fun i hi _ => hboard i hi⟩
    | resize handle origin =>
      obtain ⟨hagrees, hboard⟩ := @Agrees.putDown M isFrame s h _ hdrag
        [resized origin handle r.dx r.dy] rfl fun n hn => by
          rw [List.mem_singleton.mp hn]
          exact (hands origin List.mem_cons_self).resized handle r.dx r.dy
      exact ⟨hagrees, fun i hi _ => hboard i hi⟩
    | create tool start =>
      have hidle := (h.fresh hfresh (decide (tool = .frame))).idle (hfree rfl)
      unfold Release.finish
      dsimp only
      have hsize : least tool ≤ (if r.near then defaultSize tool
            else (max 20 |start.1 - r.p.1|, max 20 |start.2 - r.p.2|) : Point).1 ∧
          least tool ≤ (if r.near then defaultSize tool
            else (max 20 |start.1 - r.p.1|, max 20 |start.2 - r.p.2|) : Point).2 := by
        split
        · exact least_defaultSize tool
        · have htwenty : (1 : ℚ) ≤ 20 := by norm_num
          exact ⟨least_le (htwenty.trans (le_max_left _ _)),
            least_le (htwenty.trans (le_max_left _ _))⟩
      let size : Point := if r.near then defaultSize tool
        else (max 20 |start.1 - r.p.1|, max 20 |start.2 - r.p.2|)
      let place : Point := if r.near then (start.1 - size.1 / 2, start.2 - size.2 / 2)
        else (min start.1 r.p.1, min start.2 r.p.2)
      obtain ⟨⟨hmade, hboard⟩, hstarted, hkept⟩ := hidle.made hcloses hnew hfresh.named
        (Function.update_self _ _ _) place hsize.1 hsize.2
      split
      · exact ⟨⟨_, hstarted⟩, fun i hi hne => hkept i (fun hmem => hi (held_letGo hmem)) hne⟩
      · exact ⟨⟨_, hmade⟩, fun i _ hne => hboard i hne⟩
    | arrow start fromId =>
      have hidle := (h.fresh hfresh false).idle (hfree rfl)
      unfold Release.finish
      dsimp only
      split
      · exact ⟨⟨_, hidle⟩, fun _ _ _ => rfl⟩
      · obtain ⟨hagrees, hcommits⟩ := hidle.set ([arrowNode { s with drag := none } r start
            fromId (r.hit.filter fun id => joins s.scene id ∧ fromId ≠ some id)]) fun n hn => by
          rw [List.mem_singleton.mp hn]
          refine good_arrowNode hfresh.named (Function.update_self _ _ _)
            ⟨harrow _ _ rfl, hfresh.arrow _ _ hdrag⟩
            ⟨joins_ne h.ids fun id hp => ?_, fun heq => ?_⟩
          · exact (of_decide_eq_true hp).1
          · have hjoins := (of_decide_eq_true (Option.filter_eq_some_iff.mp heq).2).1
            rw [joins, hfresh.scene] at hjoins
            cases hjoins
        exact ⟨⟨_, hagrees.select _⟩, fun i _ hne => hcommits.board i fun hmem =>
          hne (List.mem_singleton.mp hmem)⟩
    | ink =>
      have hidle := (h.fresh hfresh false).idle (hfree rfl)
      unfold Release.finish
      dsimp only
      split
      · exact ⟨⟨_, hidle⟩, fun _ _ _ => rfl⟩
      · obtain ⟨hagrees, hcommits⟩ := hidle.set [inkNode { s with drag := none } r]
          fun n hn => by
            rw [List.mem_singleton.mp hn]
            exact good_inkNode hfresh.named (Function.update_self _ _ _)
        exact ⟨⟨_, hagrees⟩, fun i _ hne => hcommits.board i fun hmem =>
          hne (List.mem_singleton.mp hmem)⟩

theorem Agrees.doubleClick (h : Agrees M isFrame s.InHand s) (hit : Option String)
    (place : Point) (hfresh : s.Fresh id) (hcloses : s.Closes) :
    (∃ isFrame, Agrees M isFrame (doubleClick M s hit id place).InHand
      (doubleClick M s hit id place)) ∧
      ∀ i, i ∉ s.held → i ≠ id → (doubleClick M s hit id place).board.node i = s.board.node i := by
  rw [Canvas.doubleClick]
  split
  · next n hn =>
    split
    · obtain ⟨hagrees, hboard⟩ := (h.select [n.id]).startEditing hcloses n.id
      exact ⟨⟨_, hagrees⟩, fun i hi _ => hboard i hi⟩
    · exact ⟨⟨_, h⟩, fun _ _ _ => rfl⟩
  · obtain ⟨hw, hh⟩ := least_defaultSize .sticky
    obtain ⟨-, hagrees, hboard⟩ := (h.fresh hfresh (decide (Kind.sticky = .frame))).made hcloses
      hfresh.held hfresh.named (Function.update_self _ _ _)
      (place.1 - (defaultSize .sticky).1 / 2, place.2 - (defaultSize .sticky).2 / 2) hw hh
    exact ⟨⟨_, hagrees⟩, hboard⟩

/-- New ids are of what is made of them. -/
theorem Agrees.freshAll {set : List Node} (h : Agrees M isFrame s.InHand s)
    (hnodup : (set.map Node.id).Nodup) (hfresh : ∀ n ∈ set, s.Fresh n.id) :
    ∃ kinds, Agrees M kinds s.InHand s ∧ (∀ i, i ∉ set.map Node.id → kinds i = isFrame i) ∧
      ∀ n ∈ set, kinds n.id = decide (n.kind = .frame) := by
  induction set generalizing isFrame with
  | nil => exact ⟨isFrame, h, fun _ _ => rfl, fun n hn => absurd hn List.not_mem_nil⟩
  | cons n set ih =>
    rw [List.map_cons, List.nodup_cons] at hnodup
    obtain ⟨kinds, hagrees, hrest, hkinds⟩ :=
      ih (h.fresh (hfresh n List.mem_cons_self) (decide (n.kind = .frame))) hnodup.2
        fun m hm => hfresh m (List.mem_cons_of_mem _ hm)
    refine ⟨kinds, hagrees, fun i hi => ?_, fun m hm => ?_⟩
    · rw [List.map_cons, List.mem_cons, not_or] at hi
      rw [hrest i hi.2, Function.update_of_ne hi.1]
    · obtain rfl | hm := List.mem_cons.mp hm
      · rw [hrest m.id hnodup.1, Function.update_self]
      · exact hkinds m hm

theorem Node.Good.copied (h : n.Good isFrame) {kinds : String → Bool} (hid : id ≠ "")
    (hk : n.kind ≠ .arrow) (hkind : kinds id = decide (n.kind = .frame)) (scene : List Node)
    (x y : ℚ) (f : Point → Point) :
    Node.Good kinds { n with id, x, y, z := Scene.nextZ scene n.kind, points := n.points.map f } := by
  refine ⟨⟨h.proper.wide, h.proper.high, fun heq => ?_, h.proper.name, h.proper.size,
    h.proper.ends, fun hink => congrArg (List.map f) (h.proper.points hink), h.proper.named⟩, hid,
    hkind, fun hatt => hk hatt.1⟩
  obtain ⟨hfill, htext, hframe, -, hlocked⟩ := h.proper.frame heq
  exact ⟨hfill, htext, hframe, if_pos heq, hlocked⟩

theorem snd_zip_sublist (l : List Node) (ids : List String) :
    ((l.zip ids).map Prod.snd).Sublist ids := by
  induction l generalizing ids with
  | nil => exact List.nil_sublist _
  | cons n l ih =>
    cases ids with
    | nil => exact List.nil_sublist _
    | cons id ids => exact (ih ids).cons_cons id

/-- **An operation on what is selected.** -/
theorem Agrees.op (h : Agrees M isFrame s.InHand s) (o : Op) (hmeets : (Event.op o).Meets M s) :
    (∃ isFrame, Agrees M isFrame (o.apply M s).InHand (o.apply M s)) ∧
      ∀ i, i ∉ s.selection ++ (Event.op o).news →
        (o.apply M s).board.node i = s.board.node i := by
  have hset : ∀ {set : List Node}, (∀ n ∈ set, n.Good isFrame ∧ n.id ∈ s.selection) →
      (∃ isFrame, Agrees M isFrame (s.commitSet M set).InHand (s.commitSet M set)) ∧
        ∀ i, i ∉ s.selection ++ (Event.op o).news →
          (s.commitSet M set).board.node i = s.board.node i := by
    intro set hset
    obtain ⟨hagrees, hboard⟩ := h.commitSet hset
    exact ⟨⟨_, hagrees⟩, fun i hi => hboard i fun hmem => hi (List.mem_append_left _ hmem)⟩
  cases o with
  | deleteSelection =>
    rw [Op.apply]
    split
    · exact ⟨⟨_, h⟩, fun _ _ => rfl⟩
    · obtain ⟨hagrees, hcommits⟩ := h.commit_delete hmeets
      refine ⟨⟨_, hagrees.committed hcommits⟩, fun i hi => hcommits.board i fun hmem => hi ?_⟩
      exact List.mem_append_left _ (List.mem_filter.mp hmem).1
  | setFill fill =>
    refine hset fun n hn => ?_
    obtain ⟨m, hm, rfl⟩ := List.mem_map.mp hn
    obtain ⟨hm, hopen⟩ := List.mem_filter.mp hm
    obtain ⟨hmem, hid⟩ := mem_selected hm
    have hgood := h.good m hmem
    have hk := (of_decide_eq_true hopen).2.1
    exact ⟨⟨{ hgood.proper with frame := fun heq => absurd heq hk }, hgood.named, hgood.kind,
      hgood.own⟩, hid⟩
  | setLocked locked =>
    refine hset fun n hn => ?_
    obtain ⟨m, hm, rfl⟩ := List.mem_map.mp hn
    obtain ⟨hmem, hid⟩ := mem_selected hm
    have hgood := h.good m hmem
    refine ⟨⟨{ hgood.proper with frame := fun heq => ?_ }, hgood.named, hgood.kind, hgood.own⟩, hid⟩
    obtain ⟨hfill, htext, hframe, hz, -⟩ := hgood.proper.frame heq
    cases locked with
    | false => exact ⟨hfill, htext, hframe, hz, rfl⟩
    | true => exact absurd heq (hmeets m hm)
  | order toward =>
    refine hset fun n hn => ?_
    obtain ⟨m, hm, rfl⟩ := List.mem_map.mp hn
    obtain ⟨hm, hin⟩ := List.mem_filter.mp hm
    obtain ⟨hm, hk⟩ := List.mem_filter.mp hm
    have hgood := h.good m (List.mem_mergeSort.mp hm)
    exact ⟨⟨{ hgood.proper with frame := fun heq => absurd heq (of_decide_eq_true hk) },
      hgood.named, hgood.kind, hgood.own⟩, (of_decide_eq_true hin).1⟩
  | nudge dx dy =>
    refine hset fun n hn => ?_
    obtain ⟨m, hm, rfl⟩ := List.mem_map.mp hn
    obtain ⟨hmem, hid⟩ := mem_selected (List.mem_filter.mp hm).1
    exact ⟨(h.good m hmem).moved dx dy, hid⟩
  | duplicate ids =>
    rw [Op.apply]
    split
    · exact ⟨⟨_, h⟩, fun _ _ => rfl⟩
    · have hids : (copied s ids).map Node.id =
          ((s.selected.filter fun n => n.kind ≠ .arrow).zip ids).map Prod.snd := by
        rw [copied, List.map_map]
        rfl
      have hnews : ∀ n ∈ copied s ids, n.id ∈ ids := by
        intro n hn
        have hmem := List.mem_map_of_mem (f := Node.id) hn
        rw [hids] at hmem
        obtain ⟨c, hc, heq⟩ := List.mem_map.mp hmem
        exact heq ▸ (List.of_mem_zip hc).2
      have hnodup : ((copied s ids).map Node.id).Nodup := by
        rw [hids]
        exact hmeets.1.sublist (snd_zip_sublist _ _)
      obtain ⟨kinds, hagrees, -, hkinds⟩ :=
        h.freshAll hnodup fun n hn => hmeets.2 n.id (hnews n hn)
      obtain ⟨hagrees, hcommits⟩ := hagrees.set (copied s ids) fun n hn => by
        have hnew := hmeets.2 n.id (hnews n hn)
        have hkind := hkinds n hn
        obtain ⟨c, hc, rfl⟩ := List.mem_map.mp hn
        obtain ⟨hmem, hk⟩ := List.mem_filter.mp (List.of_mem_zip hc).1
        exact (h.good c.1 (mem_selected hmem).1).copied hnew.named (of_decide_eq_true hk) hkind
          s.scene _ _ fun p => (p.1 + 24, p.2 + 24)
      refine ⟨⟨_, hagrees.select _⟩, fun i hi => hcommits.board i fun hmem => hi ?_⟩
      obtain ⟨n, hn, rfl⟩ := List.mem_map.mp hmem
      exact List.mem_append_right _ (hnews n hn)

end Ending

/-! ### Runs -/

/-- No gesture and no text edit is in progress. -/
def State.Idle (s : State) : Prop :=
  s.drag = none ∧ s.editing = none

/-- What is asked of one event: with hands off the scene holds exactly the document's nodes; a remote
change or a load is the replica's document afterwards; and what the user does writes only what is in
the user's hands, selected or new. -/
structure HandsOff (M : Measure) (s : State) (e : Event) : Prop where
  shows : (e.apply M s).Idle →
    ∀ n, n ∈ (e.apply M s).scene ↔ ∃ m ∈ fromDoc (e.apply M s).board, sameNode n m = true
  takes : ∀ doc, e = .receive doc ∨ e = .load doc → (e.apply M s).board = doc
  keeps : (∀ doc, e ≠ .receive doc ∧ e ≠ .load doc) →
    ∀ i, i ∉ e.names s → (e.apply M s).board.node i = s.board.node i

/-- An editor with nothing on it, before its replica starts. -/
def blank : State :=
  ⟨⟨[], [], []⟩, [], [], [], [], none, none⟩

/-- The editor and its replica after some events. -/
@[grind =]
def run (M : Measure) (events : List Event) : State :=
  events.foldl (fun s e => e.apply M s) blank

section Runs

variable {M : Measure} {isFrame : String → Bool} {s : State} {e : Event}

theorem agrees_blank : Agrees M (fun _ => false) blank.InHand blank := by
  have hnone : ∀ n ∈ ([] : List Node), n.Good fun _ => false := fun n hn => by cases hn
  refine ⟨⟨?_, ?_, List.nodup_nil, List.nodup_nil⟩, funext fun _ => rfl, fun _ _ => rfl,
    List.nodup_nil, hnone, ?_, hnone, nofun, nofun⟩
  · exact fun f hf => by cases hf
  · exact fun sh hsh => by cases hsh
  · exact fun n hn => by cases hn

theorem not_names {i : String} (hi : i ∉ e.names s) :
    i ∉ s.held ∧ i ∉ s.selection ∧ i ∉ e.news := by
  rw [Event.names, List.mem_append, List.mem_append, not_or, not_or] at hi
  exact ⟨hi.1.1, hi.1.2, hi.2⟩

/-- **One event** keeps the invariant, takes what is remote, and writes what it names only. -/
theorem Agrees.step (h : Agrees M isFrame s.InHand s) (hmeets : e.Meets M s) :
    (∃ isFrame, Agrees M isFrame (e.apply M s).InHand (e.apply M s)) ∧
      (∀ doc, e = .receive doc ∨ e = .load doc → (e.apply M s).board = doc) ∧
      ((∀ doc, e ≠ .receive doc ∧ e ≠ .load doc) →
        ∀ i, i ∉ e.names s → (e.apply M s).board.node i = s.board.node i) := by
  cases e with
  | load doc =>
    obtain ⟨hagrees, hboard⟩ := h.showDoc true hmeets.1 hmeets.2 nofun
    refine ⟨hagrees, ?_, fun hlocal => absurd rfl (hlocal doc).2⟩
    rintro _ (heq | heq)
    · cases heq
    · cases heq
      exact hboard
  | receive doc =>
    obtain ⟨hagrees, hboard⟩ := h.showDoc false hmeets.1 hmeets.2.1 fun _ => hmeets.2.2
    refine ⟨hagrees, ?_, fun hlocal => absurd rfl (hlocal doc).1⟩
    rintro _ (heq | heq)
    · cases heq
      exact hboard
    · cases heq
  | select ids => exact ⟨⟨_, h.select ids⟩, nofun, fun _ _ _ => rfl⟩
  | press on =>
    obtain ⟨hagrees, hboard⟩ := h.press on hmeets
    exact ⟨hagrees, nofun, fun _ => hboard⟩
  | follow dx dy =>
    obtain ⟨hagrees, hboard⟩ := h.follow dx dy
    exact ⟨⟨_, hagrees⟩, nofun, fun _ i _ => congrFun (congrArg Board.node hboard) i⟩
  | release r =>
    obtain ⟨hagrees, hboard⟩ := h.release r hmeets.1 hmeets.2
    refine ⟨hagrees, nofun, fun _ i hi => hboard i (not_names hi).1 ?_⟩
    rintro rfl
    exact (not_names hi).2.2 List.mem_cons_self
  | doubleClick hit id place =>
    obtain ⟨hagrees, hboard⟩ := h.doubleClick hit place hmeets.1 hmeets.2
    refine ⟨hagrees, nofun, fun _ i hi => hboard i (not_names hi).1 ?_⟩
    rintro rfl
    exact (not_names hi).2.2 List.mem_cons_self
  | escape =>
    rw [Event.apply]
    split
    · exact ⟨⟨_, h⟩, nofun, fun _ _ _ => rfl⟩
    · next hclosed =>
      have hnone : s.editing = none := Option.not_isSome_iff_eq_none.mp hclosed
      split
      · have hstill := h.still (hmeets hnone)
        refine ⟨⟨isFrame, hstill.distinct, hstill.shown, fun i hi => hstill.agree i fun hin =>
          hi (.inr hin), hstill.nodup, hstill.good, hstill.laid, fun n hn =>
          absurd hn List.not_mem_nil, hstill.label, nofun⟩, nofun, fun _ _ _ => rfl⟩
      · exact ⟨⟨_, h.select []⟩, nofun, fun _ _ _ => rfl⟩
  | enter =>
    rw [Event.apply]
    split
    · next id hnone hselection =>
      have hcloses : s.Closes := by
        intro id' text n he
        exact absurd (hnone.symm.trans he) nofun
      obtain ⟨hagrees, hboard⟩ := h.startEditing hcloses id
      exact ⟨⟨_, hagrees⟩, nofun, fun _ i hi => hboard i (not_names hi).1⟩
    · exact ⟨⟨_, h⟩, nofun, fun _ _ _ => rfl⟩
  | type text =>
    obtain ⟨hagrees, hboard⟩ := h.type text
    exact ⟨⟨_, hagrees⟩, nofun, fun _ i _ => congrFun (congrArg Board.node hboard) i⟩
  | closeText =>
    obtain ⟨hagrees, hboard⟩ := h.closed hmeets
    exact ⟨⟨_, hagrees⟩, nofun, fun _ i hi => hboard i (not_names hi).1⟩
  | op o =>
    obtain ⟨hagrees, hboard⟩ := h.op o hmeets
    refine ⟨hagrees, nofun, fun _ i hi => hboard i fun hmem => ?_⟩
    obtain hmem | hmem := List.mem_append.mp hmem
    · exact (not_names hi).2.1 hmem
    · exact (not_names hi).2.2 hmem

/-- With nothing in hand the scene is the document's. -/
theorem Agrees.shows_idle (h : Agrees M isFrame s.InHand s) (hidle : s.Idle) (n : Node) :
    n ∈ s.scene ↔ ∃ m ∈ fromDoc s.board, sameNode n m = true := by
  have hfree : ¬s.InHand n.id := by
    rintro (hdragged | ⟨⟨text, hediting⟩, -⟩)
    · rw [State.Dragged, hidle.1] at hdragged
      exact hdragged
    · simp [hidle.2] at hediting
  have hagree := h.agree n.id hfree
  have hread : n ∈ s.scene ↔ n ∈ fromDoc s.board := by
    rw [← lookup_fromDoc h.distinct] at hagree
    constructor
    · intro hn
      have hget : Scene.get s.scene n.id = some n := lookup_eq_some h.nodup hn
      exact (mem_of_lookup (hagree ▸ hget)).1
    · intro hn
      have hget := lookup_eq_some (nodup_fromDoc h.distinct) hn
      exact (mem_of_get (hagree.symm ▸ hget)).1
  rw [hread]
  refine ⟨fun hn => ⟨n, hn, decide_eq_true rfl⟩, ?_⟩
  rintro ⟨m, hm, hsame⟩
  exact of_decide_eq_true hsame ▸ hm

theorem run_concat (events : List Event) (e : Event) :
    run M (events ++ [e]) = e.apply M (run M events) := by
  rw [run, List.foldl_append]
  rfl

/-- **Hands off, the board shows its document**: over every run of the user's gestures and
operations, remote changes and loads, each of which meets its condition. -/
theorem hands_off {events : List Event}
    (h : ∀ before e after, events = before ++ e :: after → e.Meets M (run M before))
    {before after : List Event} (hsplit : events = before ++ e :: after) :
    HandsOff M (run M before) e := by
  have hagrees : ∀ (before rest : List Event), events = before ++ rest →
      ∃ isFrame, Agrees M isFrame (run M before).InHand (run M before) := by
    intro before
    induction before using List.reverseRecOn with
    | nil => exact fun _ _ => ⟨_, agrees_blank⟩
    | append_singleton before e ih =>
      intro rest hrest
      rw [List.append_assoc] at hrest
      obtain ⟨kinds, hbefore⟩ := ih _ hrest
      rw [run_concat]
      exact (hbefore.step (h before e rest hrest)).1
  obtain ⟨kinds, hbefore⟩ := hagrees before _ hsplit
  obtain ⟨⟨kinds', hafter⟩, htakes, hkeeps⟩ := hbefore.step (h before e after hsplit)
  exact ⟨hafter.shows_idle, htakes, hkeeps⟩

end Runs

/-- Text a line high, and ends where the nodes are. -/
def flat : Measure where
  height _ _ _ := 1
  one_le_height _ _ _ := le_refl 1
  endpoints _ _ := ((0, 0), (0, 0))

/-- A board with a note. -/
@[grind =]
def noted : Board :=
  ⟨[], [⟨"s1", "sticky", 0, 0, 196, 108, none, none, none, none, none, none, none, none, none, none,
    none⟩], []⟩

/-- The board with the note where it was dragged, and another note. -/
def answered : Board :=
  ⟨[], [⟨"s1", "sticky", 10, 0, 196, 108, none, none, none, none, none, none, none, none, none, none,
    none⟩, ⟨"s2", "sticky", 300, 0, 196, 108, none, none, none, none, none, none, none, none, none,
    none, none⟩], []⟩

/-- The note is dragged to the right, and a document comes. -/
def dragging : List Event :=
  [.load noted, .press (.hit "s1" false), .follow 10 0,
    .release ⟨(10, 0), 10, 0, false, none, [], [], "a1"⟩, .receive answered]

theorem noted_readable : noted.Readable flat :=
  ⟨by decide, by decide, by decide, by decide⟩

theorem answered_readable : answered.Readable flat :=
  ⟨by decide, by decide, by decide, by decide⟩

theorem dragging_meets (k : Fin dragging.length) :
    dragging[k].Meets flat (run flat (dragging.take k)) := by
  have hopen : ∀ k : Fin dragging.length, (run flat (dragging.take k)).editing = none := by
    decide +kernel
  have hcloses : (run flat (dragging.take k)).Closes := fun id text n he => by
    rw [hopen k] at he
    cases he
  match k with
  | ⟨0, _⟩ => exact ⟨noted_readable, nofun⟩
  | ⟨1, _⟩ => exact ⟨fun i hi => (by cases hi), hcloses⟩
  | ⟨2, _⟩ => trivial
  | ⟨3, _⟩ =>
    have hfresh : (run flat (dragging.take 3)).Fresh "a1" :=
      ⟨by decide, by decide +kernel, by decide +kernel, by decide +kernel, by decide +kernel,
        fun _ _ h => by cases h⟩
    exact ⟨hfresh, hcloses⟩
  | ⟨4, _⟩ =>
    have hheld : (run flat (dragging.take 4)).held = [] := by decide +kernel
    have harrows : ∀ a ∈ fromDoc answered, a.kind ≠ .arrow := by decide +kernel
    refine ⟨answered_readable, fun id hid => ?_, fun a ha id _ _ hat => ?_⟩
    · have hid : id ∈ (run flat (dragging.take 4)).held := hid
      rw [hheld] at hid
      cases hid
    · obtain ha | ha := ha
      · exact harrows a ha hat.1
      · have ha : a.id ∈ (run flat (dragging.take 4)).held := ha.2
        rw [hheld] at ha
        cases ha

theorem hands_off_dragging : HandsOff flat (run flat (dragging.take 4)) (.receive answered) := by
  have hsplit : dragging = dragging.take 4 ++ .receive answered :: [] := rfl
  exact hands_off (Library.forall_split dragging_meets) hsplit

/-- A note dragged away, and Escape. -/
def escaped : List Event :=
  [.load noted, .press (.hit "s1" false), .follow 10 0]

/-- The note stays where it was dragged, and the document has it where it was. -/
theorem escape_leaves : ¬HandsOff flat (run flat escaped) .escape := by
  intro h
  have hidle : (Event.escape.apply flat (run flat escaped)).Idle := ⟨by decide,
    by decide⟩
  have hscene : (Event.escape.apply flat (run flat escaped)).scene.map (fun n => n.x) = [10] := by
    decide +kernel
  have hdoc : (fromDoc (Event.escape.apply flat (run flat escaped)).board).map (fun n => n.x) =
      [0] := by
    decide
  obtain ⟨n, hn, hx⟩ := List.mem_map.mp (hscene ▸ List.mem_cons_self : (10 : ℚ) ∈ _)
  obtain ⟨m, hm, hsame⟩ := (h.shows hidle n).mp hn
  have hm := List.mem_map_of_mem (f := fun n : Node => n.x) hm
  rw [hdoc, ← of_decide_eq_true hsame, hx] at hm
  exact absurd hm (by decide)

end Canvas

end LocalSpace
