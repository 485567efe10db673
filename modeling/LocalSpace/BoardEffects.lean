import LocalSpace.Whiteboard

/-!
# What the tools of the whiteboard do

Every call of a tool has one of a few effects on the shapes, the frames and the selection
(`Effect`, `effect_of`); what holds of every board is proved from these.
-/

namespace LocalSpace

namespace Whiteboard

open Library

/-! ### What a document holds -/

@[grind =]
def shapes (stored : Json) : List Json :=
  shapesOf (load stored)

@[grind =]
def frames (stored : Json) : List Json :=
  framesOf (load stored)

@[grind =]
def selectionOf (doc : Json) : List Json :=
  (doc.atKey "selection").asArray.getD []

@[grind =]
def selection (stored : Json) : List Json :=
  selectionOf (load stored)

/-- A document that is read as it is. -/
def Loaded (doc : Json) : Prop :=
  Json.HasAll (defaults.map Prod.fst) doc

section Documents

variable {stored doc : Json}

theorem loaded_load (stored : Json) : Loaded (load stored) :=
  Json.hasAll_withDefaults defaults stored

theorem Loaded.load_eq (h : Loaded doc) : load doc = doc :=
  Json.HasAll.withDefaults_eq h

theorem Loaded.setKey (h : Loaded doc) (key : String) (v : Json) : Loaded (doc.setKey key v) :=
  Json.HasAll.setKey h key v

theorem Loaded.withShapes (h : Loaded doc) (list : List Json) : Loaded (withShapes doc list) :=
  h.setKey "shapes" (.arr list)

theorem Loaded.shapes (h : Loaded doc) : shapes doc = shapesOf doc := by
  rw [Whiteboard.shapes, h.load_eq]

theorem Loaded.frames (h : Loaded doc) : frames doc = framesOf doc := by
  rw [Whiteboard.frames, h.load_eq]

theorem Loaded.selection (h : Loaded doc) : selection doc = selectionOf doc := by
  rw [Whiteboard.selection, h.load_eq]

theorem Loaded.shapesOf_withShapes (h : Loaded doc) (list : List Json) :
    shapesOf (Whiteboard.withShapes doc list) = list := by
  rw [shapesOf, Whiteboard.withShapes, Json.atKey_setKey h.object]
  rfl

theorem shapesOf_setKey {key : String} (h : "shapes" ≠ key) (v : Json) :
    shapesOf (doc.setKey key v) = shapesOf doc := by
  rw [shapesOf, Json.atKey_setKey_ne h, shapesOf]

theorem framesOf_setKey {key : String} (h : "frames" ≠ key) (v : Json) :
    framesOf (doc.setKey key v) = framesOf doc := by
  rw [framesOf, Json.atKey_setKey_ne h, framesOf]

theorem selectionOf_setKey {key : String} (h : "selection" ≠ key) (v : Json) :
    selectionOf (doc.setKey key v) = selectionOf doc := by
  rw [selectionOf, Json.atKey_setKey_ne h, selectionOf]

/-- The document is read as it is, and has another's frames and selection. -/
structure Beside (doc doc' : Json) : Prop where
  loaded : Loaded doc'
  frames : framesOf doc' = framesOf doc
  selection : selectionOf doc' = selectionOf doc

theorem Beside.refl (h : Loaded doc) : Beside doc doc :=
  ⟨h, rfl, rfl⟩

theorem Beside.trans {doc' doc'' : Json} (h : Beside doc doc') (h' : Beside doc' doc'') :
    Beside doc doc'' :=
  ⟨h'.loaded, h'.frames.trans h.frames, h'.selection.trans h.selection⟩

theorem Beside.withShapes (h : Loaded doc) (list : List Json) :
    Beside doc (Whiteboard.withShapes doc list) :=
  ⟨h.withShapes list, framesOf_setKey (by decide) _, selectionOf_setKey (by decide) _⟩

theorem getD_of_shapeIndex {id : String} {i : Nat} (h : shapeIndex doc id = some i) :
    (shapesOf doc)[i]? = some ((shapesOf doc).getD i .null) ∧
      idOf ((shapesOf doc).getD i .null) = some id := by
  obtain ⟨sh, hsh, hid⟩ := Named.place_eq_some h
  rw [List.getD_eq_getElem?_getD, hsh, Option.getD_some]
  exact ⟨rfl, hid⟩

end Documents

/-! ### What a tool does to the shapes -/

/-- A shape edited, neither its id, its kind nor its ends. -/
structure SameEnds (sh sh' : Json) : Prop where
  id : idOf sh' = idOf sh
  kind : kindOf sh' = kindOf sh
  start : sh'.atKey "from" = sh.atKey "from"
  stop : sh'.atKey "to" = sh.atKey "to"

theorem SameEnds.refl (sh : Json) : SameEnds sh sh :=
  ⟨rfl, rfl, rfl, rfl⟩

theorem SameEnds.trans {sh sh' sh'' : Json} (h : SameEnds sh sh') (h' : SameEnds sh' sh'') :
    SameEnds sh sh'' :=
  ⟨h'.id.trans h.id, h'.kind.trans h.kind, h'.start.trans h.start, h'.stop.trans h.stop⟩

theorem SameEnds.setKey {key : String} (h : key ∉ ["id", "kind", "from", "to"]) (sh v : Json) :
    SameEnds sh (sh.setKey key v) := by
  simp only [List.mem_cons, List.not_mem_nil, or_false, not_or] at h
  obtain ⟨hid, hkind, hfrom, hto⟩ := h
  refine ⟨idOf_setKey (Ne.symm hid) v sh, ?_, ?_, ?_⟩
  · rw [kindOf, Json.atKey_setKey_ne (Ne.symm hkind), kindOf]
  · exact Json.atKey_setKey_ne (Ne.symm hfrom) v sh
  · exact Json.atKey_setKey_ne (Ne.symm hto) v sh

/-- One shape that may be touched, edited where it stands. -/
def Write (touch : Json → Prop) (l l' : List Json) : Prop :=
  ∃ i sh f, l[i]? = some sh ∧ touch sh ∧ (∀ sh, SameEnds sh (f sh)) ∧ l' = l.modify i f

/-- The ids a call names shapes by. -/
@[grind =]
def named (c : ToolCall) : List String :=
  textOf c.params "id" "" :: idsOf c.params

/-- The tools a locked shape does not refuse. -/
def unguarded : List String :=
  ["canvas.lock", "canvas.set_text", "canvas.set_fill"]

/-- What a call may touch: the shapes it names, which are not locked but for some tools. -/
def Touch (c : ToolCall) (sh : Json) : Prop :=
  (∃ id ∈ named c, idOf sh = some id) ∧ (c.name ∉ unguarded → locked sh = false)

/-- Shapes written one after another. -/
abbrev Writes (c : ToolCall) : List Json → List Json → Prop :=
  Relation.ReflTransGen (Write (Touch c))

section Editing

variable {N : Floats} {c : ToolCall} {stored doc doc' : Json} {edit : Json → Json}

theorem Writes.modify {i : Nat} {sh : Json} {l : List Json} (hi : l[i]? = some sh)
    (htouch : Touch c sh) (hedit : ∀ sh, SameEnds sh (edit sh)) : Writes c l (l.modify i edit) :=
  .single ⟨i, sh, edit, hi, htouch, hedit, rfl⟩

theorem editEach_writes (hedit : ∀ sh, SameEnds sh (edit sh)) {ids : List String} {n : Nat}
    (hids : ∀ id ∈ ids, id ∈ named c) (hloaded : Loaded doc)
    (h : editEach edit ids doc = .ok (n, doc')) :
    Writes c (shapesOf doc) (shapesOf doc') ∧ Beside doc doc' := by
  induction ids generalizing doc n with
  | nil =>
    cases h
    exact ⟨.refl, .refl hloaded⟩
  | cons id rest ih =>
    rw [editEach] at h
    split at h
    · cases h
    · next i hi =>
      split at h
      · cases h
      · next hopen =>
        split at h
        · cases h
        · next m after hrest =>
          cases h
          obtain ⟨hat, hid⟩ := getD_of_shapeIndex hi
          have htouch : Touch c ((shapesOf doc).getD i .null) :=
            ⟨⟨id, hids id List.mem_cons_self, hid⟩, fun _ => by simpa using hopen⟩
          obtain ⟨hwrites, hbeside⟩ := ih (fun id' h' => hids id' (List.mem_cons_of_mem _ h'))
            (hloaded.withShapes _) hrest
          rw [hloaded.shapesOf_withShapes] at hwrites
          exact ⟨(Writes.modify hat htouch hedit).trans hwrites,
            (Beside.withShapes hloaded _).trans hbeside⟩

theorem lockEach_writes (hname : c.name ∈ unguarded) {want : Bool} {ids : List String}
    (hids : ∀ id ∈ ids, id ∈ named c) (hloaded : Loaded doc)
    (h : lockEach want ids doc = .ok doc') :
    Writes c (shapesOf doc) (shapesOf doc') ∧ Beside doc doc' := by
  induction ids generalizing doc with
  | nil =>
    cases h
    exact ⟨.refl, .refl hloaded⟩
  | cons id rest ih =>
    rw [lockEach] at h
    split at h
    · cases h
    · next i hi =>
      obtain ⟨hat, hid⟩ := getD_of_shapeIndex hi
      have htouch : Touch c ((shapesOf doc).getD i .null) :=
        ⟨⟨id, hids id List.mem_cons_self, hid⟩, fun hnot => absurd hname hnot⟩
      obtain ⟨hwrites, hbeside⟩ := ih (fun id' h' => hids id' (List.mem_cons_of_mem _ h'))
        (hloaded.withShapes _) h
      rw [hloaded.shapesOf_withShapes] at hwrites
      exact ⟨(Writes.modify hat htouch fun sh => .setKey (by decide) sh _).trans hwrites,
        (Beside.withShapes hloaded _).trans hbeside⟩

theorem spread_writes {axis : String} {gap : N.F} {placed : List (String × N.F × N.F)}
    {cursor : N.F} {moved : Nat} (hids : ∀ p ∈ placed, p.1 ∈ named c) (hloaded : Loaded doc) :
    Writes c (shapesOf doc) (shapesOf (spread N axis gap placed cursor moved doc).2) ∧
      Beside doc (spread N axis gap placed cursor moved doc).2 := by
  induction placed generalizing cursor moved doc with
  | nil => exact ⟨.refl, .refl hloaded⟩
  | cons p rest ih =>
    obtain ⟨id, start, size⟩ := p
    have hrest : ∀ p ∈ rest, p.1 ∈ named c := fun p hp => hids p (List.mem_cons_of_mem _ hp)
    rw [spread]
    split
    · exact ih hrest hloaded
    · next i hi =>
      dsimp only
      split
      · exact ih hrest hloaded
      · next hopen =>
        obtain ⟨hat, hid⟩ := getD_of_shapeIndex hi
        have htouch : Touch c ((shapesOf doc).getD i .null) :=
          ⟨⟨id, hids _ List.mem_cons_self, hid⟩, fun _ => by simpa using hopen⟩
        have hkey : ∀ sh v : Json,
            SameEnds sh (sh.setKey (if axis = "x" then "x" else "y") v) := by
          intro sh v
          split
          · exact .setKey (by decide) sh v
          · exact .setKey (by decide) sh v
        have hwrite := Writes.modify hat htouch fun sh => hkey sh (N.toJson (N.round cursor))
        have hloaded' := hloaded.withShapes ((shapesOf doc).modify i fun sh =>
          sh.setKey (if axis = "x" then "x" else "y") (N.toJson (N.round cursor)))
        rw [← hloaded.shapesOf_withShapes (List.modify _ _ _)] at hwrite
        refine ⟨hwrite.trans (ih hrest hloaded').1, ?_⟩
        exact (Beside.withShapes hloaded _).trans (ih hrest hloaded').2

theorem placedOf_named {axis : String} {ids : List String} {placed : List (String × N.F × N.F)}
    (h : placedOf N doc axis ids = .ok placed) : ∀ p ∈ placed, p.1 ∈ ids := by
  induction ids generalizing placed with
  | nil =>
    cases h
    exact fun p hp => absurd hp List.not_mem_nil
  | cons id rest ih =>
    rw [placedOf] at h
    split at h
    · cases h
    · split at h
      · cases h
      · next before hbefore =>
        have hin : ∀ p ∈ before, p.1 ∈ id :: rest :=
          fun p hp => List.mem_cons_of_mem _ (ih hbefore p hp)
        split at h
        · cases h
          exact hin
        · cases h
          intro p hp
          obtain rfl | hp := List.mem_cons.mp hp
          · split
            · exact List.mem_cons_self
            · exact List.mem_cons_self
          · exact hin p hp

end Editing

/-- Whether an id names a connector. -/
def isArrow (doc : Json) (id : String) : Bool :=
  (shapeIndex doc id).any fun i => kindOf ((shapesOf doc).getD i .null) = some "arrow"

/-- The names of the copies of some shapes, connectors left out. -/
def copyIds (doc : Json) (ids : List String) : List String :=
  ((ids.filter fun id => !isArrow doc id).zipIdx 1).map fun p => s!"{p.1}_{p.2}"

/-- A connector's ends are among some ids. -/
def EndsIn (ids : List String) (sh : Json) : Prop :=
  ∀ key ∈ ["from", "to"], ∃ id ∈ ids, (sh.atKey key).asStr = some id

/-- A call adds a shape, under an id that begins with `lead`. -/
inductive Adds (c : ToolCall) (stored : Json) : String → Prop
  | shape (name : c.name = "canvas.add_shape")
      (kind : textOf c.params "kind" "rect" ∈ ["rect", "ellipse", "arrow", "sticky"]) :
      Adds c stored "s"
  | sticky (name : c.name = "canvas.add_sticky") : Adds c stored "s"
  | connector (name : c.name = "canvas.connect")
      (start : textOf c.params "from" "" ∈ Named.names idOf (shapes stored))
      (stop : textOf c.params "to" "" ∈ Named.names idOf (shapes stored)) : Adds c stored "a"
  | label (name : c.name = "canvas.add_text") (text : trim (textOf c.params "text" "") ≠ "") :
      Adds c stored "t"

/-- Some ids can be copied one after another: each names a shape, or a copy made before it. -/
def Copyable (doc : Json) (ids : List String) : Prop :=
  ∀ before id after, ids = before ++ id :: after →
    id ∈ Named.names idOf (shapesOf doc) ∨ id ∈ copyIds doc before

/-- What every copy is. -/
def IsCopy (sh : Json) : Prop :=
  (idOf sh).isSome = true ∧ kindOf sh ≠ some "arrow"

/-- What a call may do to the shapes, the frames and the selection. -/
inductive Effect (c : ToolCall) (stored doc' : Json) : Prop
  | wrote (writes : Writes c (shapes stored) (shapes doc')) (kept : frames doc' = frames stored)
      (selected : selection doc' = selection stored ∨ ∀ v ∈ selection doc', ∀ id,
        v.asStr = some id → id ∈ Named.names idOf (shapes stored))
  | framed (frame : Json) (name : c.name = "canvas.add_frame") (put : c.host.docPut 0 = .ok ())
      (id : idOf frame = some (nextId (load stored) "f" c.host.nowMs))
      (kept : shapes doc' = shapes stored) (added : frames doc' = frames stored ++ [frame])
      (selected : selection doc' = selection stored)
  | added (sh : Json) (lead : String) (adds : Adds c stored lead)
      (id : idOf sh = some (nextId (load stored) lead c.host.nowMs))
      (ends : kindOf sh = some "arrow" → EndsIn (Named.names idOf (shapes stored)) sh ∨
        c.name = "canvas.add_shape" ∧ textOf c.params "kind" "rect" = "arrow")
      (put : c.host.docPut 0 = .ok ()) (after : shapes doc' = shapes stored ++ [sh])
      (kept : frames doc' = frames stored) (selected : selection doc' = selection stored)
  | removed (i : Nat) (name : c.name = "canvas.delete") (put : c.host.docPut 0 = .ok ())
      (found : Named.place idOf (textOf c.params "id" "") (shapes stored) = some i)
      (unlocked : ∀ sh, (shapes stored)[i]? = some sh → locked sh = false)
      (after : shapes doc' = (shapes stored).eraseIdx i)
      (kept : frames doc' = frames stored) (selected : selection doc' = selection stored)
  | copied (new : List Json) (name : c.name = "canvas.duplicate") (put : c.host.docPut 0 = .ok ())
      (copyable : Copyable (load stored) (idsOf c.params))
      (ids : Named.names idOf new = copyIds (load stored) (idsOf c.params))
      (copies : ∀ sh ∈ new, IsCopy sh) (after : shapes doc' = shapes stored ++ new)
      (kept : frames doc' = frames stored)
      (selected : selection doc' = selection stored ∨
        selection doc' = (copyIds (load stored) (idsOf c.params)).map Json.str)

section Effects

variable {N : Floats} {c : ToolCall} {stored doc : Json} {reply : Reply}

theorem Effect.refl (c : ToolCall) (stored : Json) : Effect c stored stored :=
  .wrote .refl rfl (.inl rfl)

theorem Effect.save (h : c.host.docPut 0 = .ok () → Effect c stored doc) :
    Effect c stored (c.host.save 0 stored doc reply).2 := by
  obtain ⟨hput, hsave⟩ | ⟨_, _, hkept⟩ := save_cases c.host 0 stored doc reply
  · rw [hsave]
    exact h hput
  · rw [hkept]
    exact .refl c stored

theorem Effect.of_writes (hwrites : Writes c (shapes stored) (shapesOf doc))
    (hbeside : Beside (load stored) doc) : Effect c stored doc := by
  refine .wrote ?_ ?_ (.inl ?_)
  · rw [hbeside.loaded.shapes]
    exact hwrites
  · rw [hbeside.loaded.frames]
    exact hbeside.frames
  · rw [hbeside.loaded.selection]
    exact hbeside.selection

/-- A shape pushed under an id of the board's own. -/
theorem push_effect {sh : Json} {lead : String} {reply : Reply} (adds : Adds c stored lead)
    (id : idOf sh = some (nextId (load stored) lead c.host.nowMs))
    (ends : kindOf sh = some "arrow" → EndsIn (Named.names idOf (shapes stored)) sh ∨
      c.name = "canvas.add_shape" ∧ textOf c.params "kind" "rect" = "arrow") :
    Effect c stored (push stored (load stored) sh fun doc => c.host.save 0 stored doc reply).2 := by
  rw [push]
  split
  · exact .refl c stored
  · next list hlist =>
    have hshapes : list = shapes stored := by
      rw [shapes, shapesOf, hlist, Option.getD_some]
    have hloaded := loaded_load stored
    refine .save fun hput => ?_
    have hbeside := Beside.withShapes hloaded (list ++ [sh])
    refine .added sh lead adds id ends hput ?_ ?_ ?_
    · rw [hbeside.loaded.shapes, hloaded.shapesOf_withShapes, hshapes]
    · rw [hbeside.loaded.frames]
      exact hbeside.frames
    · rw [hbeside.loaded.selection]
      exact hbeside.selection

theorem addShape_effect {kind : String}
    (name : c.name = "canvas.add_sticky" ∧ kind = "sticky" ∨
      c.name = "canvas.add_shape" ∧ kind = textOf c.params "kind" "rect") :
    Effect c stored (addShape N c.host c.params stored kind).2 := by
  simp only [addShape]
  split
  · exact .refl c stored
  · next hknown =>
    have hadds : Adds c stored "s" := by
      obtain ⟨hname, _⟩ | ⟨hname, hparam⟩ := name
      · exact .sticky hname
      · refine .shape hname ?_
        rw [Bool.not_eq_true', Bool.not_eq_false] at hknown
        rw [← hparam]
        exact List.contains_iff_mem.mp hknown
    refine push_effect hadds rfl fun hkind => ?_
    have harrow : kind = "arrow" := Option.some.inj hkind
    obtain ⟨_, hsticky⟩ | ⟨hname, hparam⟩ := name
    · rw [harrow] at hsticky
      exact absurd hsticky (by decide)
    · exact .inr ⟨hname, hparam ▸ harrow⟩

theorem editOne_effect {guarded : Bool} {edit : Json → Json} {did : String}
    (hguarded : c.name ∉ unguarded → guarded = true) (hedit : ∀ sh, SameEnds sh (edit sh)) :
    Effect c stored (editOne c.host stored guarded (textOf c.params "id" "") edit did).2 := by
  simp only [editOne]
  split
  · exact .refl c stored
  · next i hi =>
    split
    · exact .refl c stored
    · next hopen =>
      obtain ⟨hat, hid⟩ := getD_of_shapeIndex hi
      have hloaded := loaded_load stored
      have htouch : Touch c ((shapesOf (load stored)).getD i .null) := by
        refine ⟨⟨_, List.mem_cons_self, hid⟩, fun hnot => ?_⟩
        rw [hguarded hnot] at hopen
        simpa using hopen
      refine .save fun _ => .of_writes ?_ (Beside.withShapes hloaded _)
      rw [hloaded.shapesOf_withShapes]
      exact Writes.modify hat htouch hedit

theorem delete_effect (name : c.name = "canvas.delete") :
    Effect c stored (delete c.host c.params stored).2 := by
  simp only [delete]
  split
  · exact .refl c stored
  · next i hi =>
    split
    · exact .refl c stored
    · next hopen =>
      obtain ⟨hat, _⟩ := getD_of_shapeIndex hi
      have hloaded := loaded_load stored
      have hbeside := Beside.withShapes hloaded ((shapesOf (load stored)).eraseIdx i)
      refine .save fun hput => .removed i name hput hi ?_ ?_ ?_ ?_
      · intro sh hsh
        rw [shapes, hat] at hsh
        cases hsh
        simpa using hopen
      · rw [hbeside.loaded.shapes, hloaded.shapesOf_withShapes, shapes]
      · rw [hbeside.loaded.frames]
        exact hbeside.frames
      · rw [hbeside.loaded.selection]
        exact hbeside.selection

theorem connect_effect (name : c.name = "canvas.connect") :
    Effect c stored (connect N c.host c.params stored).2 := by
  have hfound : ∀ {id : String}, (shapeIndex (load stored) id).isNone ≠ true →
      id ∈ Named.names idOf (shapes stored) := by
    intro id h
    have hsome : shapeIndex (load stored) id ≠ none := fun hnone => h (by rw [hnone]; rfl)
    obtain ⟨i, hi⟩ := Option.ne_none_iff_exists'.mp hsome
    exact Named.mem_of_place hi
  simp only [connect]
  split
  · exact .refl c stored
  · next hfrom =>
    split
    · exact .refl c stored
    · next hto =>
      refine push_effect (.connector name (hfound hfrom) (hfound hto)) rfl fun _ => .inl ?_
      intro key hkey
      simp only [List.mem_cons, List.not_mem_nil, or_false] at hkey
      obtain rfl | rfl := hkey
      · exact ⟨_, hfound hfrom, rfl⟩
      · exact ⟨_, hfound hto, rfl⟩

theorem addFrame_effect (name : c.name = "canvas.add_frame") :
    Effect c stored (addFrame N c.host c.params stored).2 := by
  simp only [addFrame]
  split
  · exact .refl c stored
  · next list hlist =>
    have hframes : list = frames stored := by
      rw [frames, framesOf, hlist, Option.getD_some]
    have hloaded := loaded_load stored
    refine .save fun hput => .framed
      (newFrame N c.params list.length (nextId (load stored) "f" c.host.nowMs)) name hput rfl
      ?_ ?_ ?_
    · rw [(hloaded.setKey "frames" _).shapes, shapesOf_setKey (by decide), shapes]
    · rw [(hloaded.setKey "frames" _).frames, framesOf, Json.atKey_setKey hloaded.object, ← hframes]
      rfl
    · rw [(hloaded.setKey "frames" _).selection, selectionOf_setKey (by decide), selection]

/-- A key written that is not the shapes, the frames or the selection. -/
theorem setKey_effect {key : String} {v : Json} (h : key ∉ ["shapes", "frames", "selection"]) :
    Effect c stored ((load stored).setKey key v) := by
  simp only [List.mem_cons, List.not_mem_nil, or_false, not_or] at h
  obtain ⟨hshapes, hframes, hselection⟩ := h
  have hloaded := loaded_load stored
  refine .of_writes ?_ ⟨hloaded.setKey key v, framesOf_setKey (Ne.symm hframes) v,
    selectionOf_setKey (Ne.symm hselection) v⟩
  rw [shapesOf_setKey (Ne.symm hshapes)]
  exact .refl

theorem select_effect : Effect c stored (select c.host c.params stored).2 := by
  simp only [select]
  split
  · exact .refl c stored
  · next hall =>
    have hloaded := loaded_load stored
    refine .save fun _ => .wrote ?_ ?_ (.inr ?_)
    · rw [(hloaded.setKey "selection" _).shapes, shapesOf_setKey (by decide)]
      exact .refl
    · rw [(hloaded.setKey "selection" _).frames, framesOf_setKey (by decide), frames]
    · rw [(hloaded.setKey "selection" _).selection, selectionOf, Json.atKey_setKey hloaded.object]
      intro v hv id hid
      have hfound := List.find?_eq_none.mp hall id (List.mem_filterMap.mpr ⟨v, hv, hid⟩)
      have hsome : shapeIndex (load stored) id ≠ none := fun hnone => hfound (by rw [hnone]; rfl)
      obtain ⟨i, hi⟩ := Option.ne_none_iff_exists'.mp hsome
      exact Named.mem_of_place hi

theorem edited_effect {edit : Json → Json} {replies : Nat → Reply}
    (hedit : ∀ sh, SameEnds sh (edit sh)) :
    Effect c stored
      (edited c.host stored (editEach edit (idsOf c.params) (load stored)) replies).2 := by
  simp only [edited]
  split
  · exact .refl c stored
  · next n doc h =>
    obtain ⟨hwrites, hbeside⟩ := editEach_writes (c := c) hedit
      (fun id hid => List.mem_cons_of_mem _ hid) (loaded_load stored) h
    exact .save fun _ => .of_writes hwrites hbeside

theorem order_effect : Effect c stored (order c.host c.params stored).2 := by
  simp only [order]
  split
  · exact .refl c stored
  · exact edited_effect fun sh => .setKey (by decide) sh _

theorem lock_effect (name : c.name = "canvas.lock") :
    Effect c stored (lock c.host c.params stored).2 := by
  simp only [lock]
  split
  · exact .refl c stored
  · split
    · exact .refl c stored
    · next doc h =>
      obtain ⟨hwrites, hbeside⟩ := lockEach_writes (c := c) (by simp [name, unguarded])
        (fun id hid => List.mem_cons_of_mem _ hid) (loaded_load stored) h
      exact .save fun _ => .of_writes hwrites hbeside

theorem align_effect : Effect c stored (align N c.host c.params stored).2 := by
  simp only [align]
  split
  · exact .refl c stored
  · split
    · exact .refl c stored
    · refine edited_effect fun sh => ?_
      split
      · exact .refl sh
      · split
        · exact .setKey (by decide) sh _
        · exact .setKey (by decide) sh _
        · exact .setKey (by decide) sh _
        · exact .setKey (by decide) sh _
        · exact .setKey (by decide) sh _
        · exact .setKey (by decide) sh _
        · exact .refl sh

theorem distribute_effect : Effect c stored (distribute N c.host c.params stored).2 := by
  simp only [distribute]
  split
  · exact .refl c stored
  · split
    · exact .refl c stored
    · next placed hplaced =>
      split
      · exact .refl c stored
      · split
        · have hids : ∀ p ∈ placed.mergeSort fun a b => !N.less b.2.1 a.2.1, p.1 ∈ named c := by
            intro p hp
            exact List.mem_cons_of_mem _ (placedOf_named hplaced p (List.mem_mergeSort.mp hp))
          refine .save fun _ => ?_
          obtain ⟨hwrites, hbeside⟩ := spread_writes hids (loaded_load stored)
          exact .of_writes hwrites hbeside
        · exact .refl c stored

theorem addText_effect (name : c.name = "canvas.add_text") :
    Effect c stored (addText N c.host c.params stored).2 := by
  simp only [addText]
  split
  · exact .refl c stored
  · next htext =>
    refine push_effect (.label name htext) rfl fun hkind => ?_
    have hlabel : ("text" : String) = "arrow" := Option.some.inj hkind
    exact absurd hlabel (by decide)

theorem exportOutline_effect : Effect c stored (exportOutline c.host c.params stored).2 := by
  simp only [exportOutline]
  split
  · exact .refl c stored
  · exact .save fun _ => setKey_effect (by decide)

end Effects

section Copies

variable {N : Floats} {c : ToolCall} {stored doc doc₀ doc' : Json}

theorem isObject_of_idOf {sh : Json} {id : String} (h : idOf sh = some id) :
    sh.isObject = true := by
  cases sh <;> first | rfl | cases h

theorem copyOf_spec (N : Floats) (doc : Json) {sh : Json} (hobject : sh.isObject = true)
    (newId : String) (n : Nat) :
    idOf (copyOf N doc sh newId n) = some newId ∧ kindOf (copyOf N doc sh newId n) = kindOf sh := by
  simp only [copyOf]
  constructor
  · rw [idOf_setKey (by decide), idOf_setKey (by decide), idOf_setKey (by decide),
      idOf_setKey (by decide), idOf, Json.atKey_setKey hobject]
    rfl
  · simp only [kindOf]
    rw [Json.atKey_setKey_ne (by decide), Json.atKey_setKey_ne (by decide),
      Json.atKey_setKey_ne (by decide), Json.atKey_setKey_ne (by decide),
      Json.atKey_setKey_ne (by decide)]

theorem copyIds_concat (doc : Json) (ids : List String) (id : String) :
    copyIds doc (ids ++ [id]) = copyIds doc ids ++
      if isArrow doc id then [] else [s!"{id}_{(copyIds doc ids).length + 1}"] := by
  simp only [copyIds, List.filter_append, List.zipIdx_append, List.map_append, List.length_map,
    List.length_zipIdx]
  congr 1
  cases h : isArrow doc id with
  | true => simp [h]
  | false => simp [h, Nat.add_comm]

/-- A copy changes nothing of which shapes are found and are connectors. -/
theorem found_arrow {new : List Json} {id : String} {i : Nat}
    (hshapes : shapesOf doc = shapesOf doc₀ ++ new) (hboxes : ∀ sh ∈ new, kindOf sh ≠ some "arrow")
    (hi : shapeIndex doc id = some i) :
    isArrow doc₀ id = decide (kindOf ((shapesOf doc).getD i .null) = some "arrow") := by
  rw [shapeIndex, hshapes, Named.place, List.findIdx?_append] at hi
  rw [isArrow, shapeIndex, Named.place]
  cases h₀ : (shapesOf doc₀).findIdx? fun sh => idOf sh = some id with
  | some j =>
    rw [h₀, Option.some_or] at hi
    cases hi
    have hlt := (List.findIdx?_eq_some_iff_getElem.mp h₀).1
    simp only [Option.any_some, List.getD_eq_getElem?_getD, hshapes,
      List.getElem?_append_left hlt]
  | none =>
    rw [h₀, Option.none_or] at hi
    obtain ⟨j, hj, rfl⟩ := Option.map_eq_some_iff.mp hi
    have hlt := (List.findIdx?_eq_some_iff_getElem.mp hj).1
    have hbox := hboxes _ (List.getElem_mem hlt)
    rw [Option.any_none, List.getD_eq_getElem?_getD, hshapes,
      List.getElem?_append_right (Nat.le_add_left _ _), Nat.add_sub_cancel,
      List.getElem?_eq_getElem hlt, Option.getD_some]
    exact (decide_eq_false hbox).symm

theorem copyEach_spec {ids before made made' : List String} {new : List Json}
    (hshapes : shapesOf doc = shapesOf doc₀ ++ new) (hcopies : ∀ sh ∈ new, IsCopy sh)
    (hnames : Named.names idOf new = made) (hmade : made = copyIds doc₀ before)
    (hbeside : Beside doc₀ doc) (h : copyEach N ids doc made = .ok (doc', made')) :
    ∃ new', shapesOf doc' = shapesOf doc₀ ++ new' ∧ (∀ sh ∈ new', IsCopy sh) ∧
      Named.names idOf new' = made' ∧ made' = copyIds doc₀ (before ++ ids) ∧ Beside doc₀ doc' ∧
      ∀ u id v, ids = u ++ id :: v →
        id ∈ Named.names idOf (shapesOf doc₀) ∨ id ∈ copyIds doc₀ (before ++ u) := by
  induction ids generalizing doc before made new with
  | nil =>
    cases h
    refine ⟨new, hshapes, hcopies, hnames, by rw [hmade, List.append_nil], hbeside, ?_⟩
    intro u id v huv
    simp at huv
  | cons id rest ih =>
    have hconcat := copyIds_concat doc₀ before id
    rw [copyEach] at h
    split at h
    · cases h
    · next i hi =>
      have harrow := found_arrow hshapes (fun sh hsh => (hcopies sh hsh).2) hi
      -- the first of them is found among the shapes, or among the copies made of those before
      have hfirst : id ∈ Named.names idOf (shapesOf doc₀) ∨ id ∈ copyIds doc₀ before := by
        have hfound := Named.mem_of_place hi
        rw [hshapes, Named.names_append, hnames, hmade] at hfound
        exact List.mem_append.mp hfound
      have hall : (∀ u id' v, rest = u ++ id' :: v → id' ∈ Named.names idOf (shapesOf doc₀) ∨
          id' ∈ copyIds doc₀ (before ++ [id] ++ u)) → ∀ u id' v, id :: rest = u ++ id' :: v →
          id' ∈ Named.names idOf (shapesOf doc₀) ∨ id' ∈ copyIds doc₀ (before ++ u) := by
        intro hrest u id' v huv
        cases u with
        | nil =>
          rw [List.nil_append] at huv
          rw [← (List.cons.inj huv).1, List.append_nil]
          exact hfirst
        | cons x u =>
          obtain ⟨rfl, hv⟩ := List.cons.inj huv
          have hfound := hrest u id' v hv
          rw [List.append_assoc] at hfound
          exact hfound
      have hids : before ++ [id] ++ rest = before ++ id :: rest := List.append_cons .. |>.symm
      dsimp only at h
      split at h
      · next hkind =>
        -- a connector is left out
        rw [harrow, decide_eq_true hkind, if_pos rfl, List.append_nil] at hconcat
        obtain ⟨new', h₁, h₂, h₃, h₄, h₅, hrest⟩ :=
          ih hshapes hcopies hnames (hmade.trans hconcat.symm) hbeside h
        rw [hids] at h₄
        exact ⟨new', h₁, h₂, h₃, h₄, h₅, hall hrest⟩
      · next hkind =>
        rw [harrow, decide_eq_false hkind, if_neg Bool.false_ne_true] at hconcat
        obtain ⟨_, hid⟩ := getD_of_shapeIndex hi
        obtain ⟨hcopyId, hcopyKind⟩ := copyOf_spec N doc (isObject_of_idOf hid)
          s!"{id}_{made.length + 1}" (made.length + 1)
        generalize copyOf N doc ((shapesOf doc).getD i .null) s!"{id}_{made.length + 1}"
          (made.length + 1) = copy at h hcopyId hcopyKind
        have hshapes' : shapesOf (withShapes doc (shapesOf doc ++ [copy])) =
            shapesOf doc₀ ++ (new ++ [copy]) := by
          rw [hbeside.loaded.shapesOf_withShapes, hshapes, List.append_assoc]
        have hcopies' : ∀ sh ∈ new ++ [copy], IsCopy sh := by
          intro sh hsh
          obtain hsh | hsh := List.mem_append.mp hsh
          · exact hcopies sh hsh
          · rw [List.mem_singleton] at hsh
            rw [hsh, IsCopy, hcopyId, hcopyKind]
            exact ⟨rfl, hkind⟩
        have hnames' : Named.names idOf (new ++ [copy]) = made ++ [s!"{id}_{made.length + 1}"] := by
          rw [Named.names_append, hnames]
          exact congrArg (made ++ ·) (List.filterMap_cons_some hcopyId)
        obtain ⟨new', h₁, h₂, h₃, h₄, h₅, hrest⟩ := ih hshapes' hcopies' hnames'
          (by rw [hconcat, hmade]) (hbeside.trans (Beside.withShapes hbeside.loaded _)) h
        rw [hids] at h₄
        exact ⟨new', h₁, h₂, h₃, h₄, h₅, hall hrest⟩

theorem duplicate_effect (name : c.name = "canvas.duplicate") :
    Effect c stored (duplicate N c.host c.params stored).2 := by
  simp only [duplicate]
  split
  · exact .refl c stored
  · split
    · exact .refl c stored
    · next doc made hcopy =>
      split
      · exact .refl c stored
      · split
        · exact .refl c stored
        · next hput =>
          have hloaded := loaded_load stored
          have hnone : [] = copyIds (load stored) [] := rfl
          obtain ⟨new, hshapes, hcopies, hnames, hmade, hbeside, hcopyable⟩ := copyEach_spec
            (List.append_nil _).symm nofun rfl hnone (.refl hloaded) hcopy
          rw [List.nil_append] at hmade
          split
          · refine .copied new name hput hcopyable (hnames.trans hmade) hcopies ?_ ?_ (.inl ?_)
            · rw [hbeside.loaded.shapes, hshapes, shapes]
            · rw [hbeside.loaded.frames]
              exact hbeside.frames
            · rw [hbeside.loaded.selection]
              exact hbeside.selection
          · have hloaded' := hbeside.loaded.setKey "selection" (.arr (made.map Json.str))
            refine .copied new name hput hcopyable (hnames.trans hmade) hcopies ?_ ?_ (.inr ?_)
            · rw [hloaded'.shapes, shapesOf_setKey (by decide), hshapes, shapes]
            · rw [hloaded'.frames, framesOf_setKey (by decide)]
              exact hbeside.frames
            · rw [hloaded'.selection, selectionOf, Json.atKey_setKey hbeside.loaded.object, ← hmade]
              rfl

end Copies

theorem effect_of {N : Floats} (c : ToolCall) (stored : Json) :
    Effect c stored (call N c stored).2 := by
  simp only [call]
  split
  · exact .refl c stored
  · next name => exact addShape_effect (.inr ⟨name, rfl⟩)
  · next name => exact addShape_effect (.inl ⟨name, rfl⟩)
  · refine editOne_effect (fun _ => rfl) fun sh => ?_
    exact (SameEnds.setKey (by decide) sh _).trans (.setKey (by decide) _ _)
  · refine editOne_effect (fun _ => rfl) fun sh => ?_
    exact (SameEnds.setKey (by decide) sh _).trans (.setKey (by decide) _ _)
  · next name =>
    refine editOne_effect (fun hnot => ?_) fun sh => .setKey (by decide) sh _
    simp [name, unguarded] at hnot
  · next name =>
    simp only [setFill]
    split
    · exact .refl c stored
    · refine editOne_effect (fun hnot => ?_) fun sh => .setKey (by decide) sh _
      simp [name, unguarded] at hnot
  · next name => exact delete_effect name
  · next name => exact connect_effect name
  · next name => exact addFrame_effect name
  · exact .save fun _ => setKey_effect (by decide)
  · exact select_effect
  · exact .refl c stored
  · next name => exact addText_effect name
  · next name => exact duplicate_effect name
  · exact order_effect
  · next name => exact lock_effect name
  · exact align_effect
  · exact distribute_effect
  · exact exportOutline_effect
  · exact .refl c stored

end Whiteboard

end LocalSpace
