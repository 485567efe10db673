import LocalSpace.BoardEffects
import LocalSpace.Library.Listings

/-!
# Locked shapes, and what ids name

Two results on the whiteboard. A locked shape is kept by every call that does not write a text or
a fill to it (`locked_kept_iff`). And a board stays `Sound`, every id the name of one shape or frame
and every connector and selected id the name of a shape, as long as the ids it makes are new and
nothing points at what it deletes (`board_sound_of_runs`).
-/

namespace LocalSpace

namespace Whiteboard

open Library

/-! ### Locked shapes -/

/-- The field `canvas.set_text` and `canvas.set_fill` write, and what they write there. -/
def relabels (c : ToolCall) : Option (String × String) :=
  if c.name = "canvas.set_text" then some ("text", textOf c.params "text" "")
  else if c.name = "canvas.set_fill" ∧ textOf c.params "fill" "grey" ∈ fills then
    some ("fill", textOf c.params "fill" "grey")
  else none

/-- A text or a fill is written to a locked shape that has another. -/
def Rewrites (c : ToolCall) (stored : Json) : Prop :=
  c.host.docPut 0 = .ok () ∧ ∃ key value i sh, relabels c = some (key, value) ∧
    shapeIndex (load stored) (textOf c.params "id" "") = some i ∧ (shapes stored)[i]? = some sh ∧
    locked sh = true ∧ sh.setKey key (.str value) ≠ sh

section Locked

variable {N : Floats} {c : ToolCall} {stored : Json}

theorem Writes.kept_locked {l l' : List Json} (hguarded : c.name ∉ unguarded)
    (h : Writes c l l') : Kept locked l l' := by
  induction h with
  | refl => exact .refl l
  | tail _ hwrite ih =>
    obtain ⟨i, sh, f, hi, ⟨_, htouch⟩, _, rfl⟩ := hwrite
    refine ih.trans (.modify fun a ha => ?_)
    rw [hi] at ha
    cases ha
    exact htouch hguarded

/-- The tools that ask for the lock keep every locked shape. -/
theorem Effect.kept_locked {doc' : Json} (h : Effect c stored doc')
    (hguarded : c.name ∉ unguarded) :
    Kept locked (shapes stored) (shapes doc') := by
  cases h with
  | wrote writes => exact writes.kept_locked hguarded
  | framed frame name put id kept =>
    rw [kept]
    exact .refl _
  | added sh lead adds id ends put after =>
    rw [after]
    exact (Kept.refl _).append _
  | removed i name put found unlocked after =>
    rw [after]
    exact .eraseIdx unlocked
  | copied new name put copyable ids copies after =>
    rw [after]
    exact (Kept.refl _).append _

theorem locked_setKey {key : String} (h : "locked" ≠ key) (sh v : Json) :
    locked (sh.setKey key v) = locked sh := by
  rw [locked, locked, Json.atKey_setKey_ne h]

theorem rewrites_iff {key value : String} (h : relabels c = some (key, value)) :
    Rewrites c stored ↔ c.host.docPut 0 = .ok () ∧ ∃ i sh,
      shapeIndex (load stored) (textOf c.params "id" "") = some i ∧ (shapes stored)[i]? = some sh ∧
      locked sh = true ∧ sh.setKey key (.str value) ≠ sh := by
  refine and_congr_right fun _ => ?_
  simp only [h, Option.some.injEq, Prod.mk.injEq]
  constructor
  · rintro ⟨_, _, i, sh, ⟨rfl, rfl⟩, hsh⟩
    exact ⟨i, sh, hsh⟩
  · rintro ⟨i, sh, hsh⟩
    exact ⟨_, _, i, sh, ⟨rfl, rfl⟩, hsh⟩

theorem not_rewrites (h : relabels c = none) : ¬Rewrites c stored := by
  rintro ⟨_, key, value, i, sh, hsome, _⟩
  rw [h] at hsome
  cases hsome

/-- What the two tools that do not ask for the lock do to the shape they name. -/
theorem editOne_kept_iff {key did : String} {v : Json} (hkey : "locked" ≠ key) (host : Services)
    (id : String) :
    Kept locked (shapes stored)
        (shapes (editOne host stored false id (fun sh => sh.setKey key v) did).2) ↔
      ¬(host.docPut 0 = .ok () ∧ ∃ i sh, shapeIndex (load stored) id = some i ∧
        (shapes stored)[i]? = some sh ∧ locked sh = true ∧ sh.setKey key v ≠ sh) := by
  have hloaded := loaded_load stored
  simp only [editOne, Bool.false_and, Bool.false_eq_true, if_false]
  split
  · next hnone =>
    refine iff_of_true (.refl _) ?_
    rintro ⟨_, i, sh, hi, _⟩
    rw [hnone] at hi
    cases hi
  · next i hi =>
    obtain ⟨hput, hsave⟩ | ⟨hput, _, hkept⟩ := save_cases host 0 stored
      (withShapes (load stored) ((shapesOf (load stored)).modify i fun sh => sh.setKey key v))
      (.ok (.obj [("id", .str id)]) did)
    · have hafter : shapes (withShapes (load stored)
          ((shapesOf (load stored)).modify i fun sh => sh.setKey key v)) =
          (shapes stored).modify i fun sh => sh.setKey key v := by
        rw [(hloaded.withShapes _).shapes, hloaded.shapesOf_withShapes, shapes]
      rw [hsave, hafter]
      obtain ⟨sh, hsh, _⟩ := Named.place_eq_some hi
      constructor
      · rintro hkept ⟨_, j, sh', hj, hsh', hlocked, hne⟩
        cases hi.symm.trans hj
        refine Kept.not_modify hsh' hlocked ?_ hne hkept
        rw [locked_setKey hkey]
        exact hlocked
      · intro hnot
        by_cases hlocked : locked sh = true
        · -- what is written is what the shape had
          have hsame : sh.setKey key v = sh := by
            by_contra hne
            exact hnot ⟨hput, i, sh, hi, hsh, hlocked, hne⟩
          have hmodify : (shapes stored).modify i (fun sh => sh.setKey key v) = shapes stored := by
            obtain ⟨hlt, hget⟩ := List.getElem?_eq_some_iff.mp hsh
            rw [List.modify_eq_set_getElem?, shapes, hsh, Option.map_eq_map, Option.map_some, hsame,
              ← hget]
            exact List.set_getElem_self hlt
          rw [hmodify]
          exact .refl _
        · refine .modify fun a ha => ?_
          rw [shapes, hsh] at ha
          cases ha
          simpa using hlocked
    · rw [hkept]
      exact iff_of_true (.refl _) fun h => hput h.1

/-- **Locked shapes**: whatever the call but `canvas.lock`, every locked shape is still there with
every field as it was, exactly where no text or fill is written to one that has another. -/
theorem locked_kept_iff (hname : c.name ≠ "canvas.lock") :
    Kept locked (shapes stored) (shapes (call N c stored).2) ↔ ¬Rewrites c stored := by
  by_cases htext : c.name = "canvas.set_text"
  · have hcall : call N c stored = setText c.host c.params stored := by simp only [call, htext]
    have hrelabels : relabels c = some ("text", textOf c.params "text" "") := by
      rw [relabels, if_pos htext]
    rw [hcall, setText, editOne_kept_iff (by decide), rewrites_iff hrelabels]
  · by_cases hfill : c.name = "canvas.set_fill"
    · have hcall : call N c stored = setFill c.host c.params stored := by simp only [call, hfill]
      rw [hcall, setFill]
      by_cases hknown : textOf c.params "fill" "grey" ∈ fills
      · have hrelabels : relabels c = some ("fill", textOf c.params "fill" "grey") := by
          rw [relabels, if_neg htext, if_pos ⟨hfill, hknown⟩]
        have hcontains : (!fills.contains (textOf c.params "fill" "grey")) = false := by
          rw [List.contains_iff_mem.mpr hknown]
          rfl
        simp only [hcontains, Bool.false_eq_true, if_false]
        rw [editOne_kept_iff (by decide), rewrites_iff hrelabels]
      · have hrelabels : relabels c = none := by
          rw [relabels, if_neg htext, if_neg fun h => hknown h.2]
        have hcontains : (!fills.contains (textOf c.params "fill" "grey")) = true := by
          rw [Bool.not_eq_true', ← Bool.not_eq_true, List.contains_iff_mem]
          exact hknown
        simp only [hcontains, if_true]
        exact iff_of_true (.refl _) (not_rewrites hrelabels)
    · -- the other tools ask for the lock
      have hguarded : c.name ∉ unguarded := by
        simp [unguarded, hname, htext, hfill]
      have hrelabels : relabels c = none := by
        rw [relabels, if_neg htext, if_neg fun h => hfill h.1]
      exact iff_of_true ((effect_of c stored).kept_locked hguarded) (not_rewrites hrelabels)

end Locked

/-- Whole numbers, with what a call on shapes that have no others needs of floating point. -/
def wholes : Floats where
  F := Int
  ofJson
    | .num i 0 => some i
    | _ => none
  toJson i := .num i 0
  lit m _ := m
  add := (· + ·)
  sub := (· - ·)
  mul := (· * ·)
  div := (· / ·)
  min := min
  max := max
  round i := i
  less a b := a < b
  largest := 2 ^ 63
  smallest := -2 ^ 63

/-- A host whose writes all go through. -/
def plainHost : Services where
  docPut _ := .ok ()
  nowMs := 0
  artifactGet id := .error s!"no artifact `{id}`"
  fromStr _ := .error "expected value at line 1 column 1"

def plainCall (name : String) (params : List (String × Json)) : ToolCall :=
  ⟨name, .obj params, plainHost⟩

/-- A sticky note, locked. -/
def lockedNote : Json :=
  .obj [("id", .str "s1_0"), ("kind", .str "sticky"), ("locked", .bool true), ("text", .str "keep")]

def lockedBoard : Json :=
  .obj [("shapes", .arr [lockedNote])]

/-- A move, which the lock refuses. -/
theorem locked_kept_iff_move : "canvas.move" ≠ "canvas.lock" ∧
    (Kept locked (shapes lockedBoard)
        (shapes (call wholes (plainCall "canvas.move" [("id", .str "s1_0")]) lockedBoard).2) ↔
      ¬Rewrites (plainCall "canvas.move" [("id", .str "s1_0")]) lockedBoard) :=
  ⟨by decide, locked_kept_iff (by decide)⟩

/-- A text, which it does not. -/
theorem lockedNote_relabelled : lockedNote ∈ shapes lockedBoard ∧ locked lockedNote = true ∧
    lockedNote ∉ shapes (call wholes (plainCall "canvas.set_text"
      [("id", .str "s1_0"), ("text", .str "lost")]) lockedBoard).2 := by
  have htexts : (shapes (call wholes (plainCall "canvas.set_text"
      [("id", .str "s1_0"), ("text", .str "lost")]) lockedBoard).2).map
      (fun sh => (sh.atKey "text").asStr) = [some "lost"] := by decide +kernel
  have hshapes : shapes lockedBoard = [lockedNote] := by
    rw [shapes, load, Json.withDefaults]
    rfl
  refine ⟨by rw [hshapes]; exact List.mem_singleton_self _, rfl, fun hmem => ?_⟩
  have hkept := List.mem_map_of_mem (f := fun sh => (sh.atKey "text").asStr) hmem
  rw [htexts] at hkept
  exact absurd hkept (by decide)

/-! ### What ids name -/

/-- The ids of the shapes and the frames. -/
@[grind =]
def ids (stored : Json) : List String :=
  Named.names idOf (shapes stored ++ frames stored)

/-- Every shape and frame has an id that is no other's, every connector's ends are shapes, and what
is selected is. -/
structure Sound (stored : Json) : Prop where
  identified : ∀ sh ∈ shapes stored ++ frames stored, (idOf sh).isSome = true
  distinct : (ids stored).Nodup
  attached : ∀ sh ∈ shapes stored, kindOf sh = some "arrow" →
    EndsIn (Named.names idOf (shapes stored)) sh
  selected : ∀ v ∈ selection stored, ∀ id, v.asStr = some id →
    id ∈ Named.names idOf (shapes stored)

/-- What a call whose write goes through must meet: the ids it makes are no shape's and no frame's,
it adds no connector that has no ends, and nothing points at the shape it deletes. -/
structure Meets (c : ToolCall) (stored : Json) : Prop where
  added : ∀ lead, Adds c stored lead → nextId (load stored) lead c.host.nowMs ∉ ids stored
  framed : c.name = "canvas.add_frame" → nextId (load stored) "f" c.host.nowMs ∉ ids stored
  copied : c.name = "canvas.duplicate" → Copyable (load stored) (idsOf c.params) →
    ∀ id ∈ copyIds (load stored) (idsOf c.params), id ∉ ids stored
  attached : c.name = "canvas.add_shape" → textOf c.params "kind" "rect" ≠ "arrow"
  detached : c.name = "canvas.delete" → ∀ i sh,
    shapeIndex (load stored) (textOf c.params "id" "") = some i → (shapes stored)[i]? = some sh →
    locked sh = false →
      (∀ other ∈ shapes stored, kindOf other = some "arrow" →
        idOf other ≠ some (textOf c.params "id" "") →
        ∀ key ∈ ["from", "to"], (other.atKey key).asStr ≠ some (textOf c.params "id" "")) ∧
      ∀ v ∈ selection stored, v.asStr ≠ some (textOf c.params "id" "")

section Sound

variable {N : Floats} {c : ToolCall} {stored doc' : Json} {l l' : List Json}

theorem EndsIn.mono {known known' : List String} {sh : Json} (h : EndsIn known sh)
    (hsub : ∀ id ∈ known, id ∈ known') : EndsIn known' sh := by
  intro key hkey
  obtain ⟨id, hid, hstr⟩ := h key hkey
  exact ⟨id, hsub id hid, hstr⟩

theorem SameEnds.endsIn {known : List String} {sh sh' : Json} (h : SameEnds sh sh')
    (hends : EndsIn known sh) : EndsIn known sh' := by
  intro key hkey
  obtain ⟨id, hid, hstr⟩ := hends key hkey
  refine ⟨id, hid, ?_⟩
  simp only [List.mem_cons, List.not_mem_nil, or_false] at hkey
  obtain rfl | rfl := hkey
  · rw [h.start]
    exact hstr
  · rw [h.stop]
    exact hstr

/-- Shapes written one after another keep their ids, their kinds and their ends. -/
theorem Writes.same (h : Writes c l l') : Named.names idOf l' = Named.names idOf l ∧
    ∀ sh' ∈ l', ∃ sh ∈ l, SameEnds sh sh' := by
  induction h with
  | refl => exact ⟨rfl, fun sh hsh => ⟨sh, hsh, .refl sh⟩⟩
  | tail _ hwrite ih =>
    obtain ⟨hnames, hsame⟩ := ih
    obtain ⟨i, sh, f, _, _, hf, rfl⟩ := hwrite
    refine ⟨(Named.names_modify fun sh => (hf sh).id).trans hnames, fun sh' hsh' => ?_⟩
    obtain ⟨j, hj, hget⟩ := List.mem_iff_getElem.mp hsh'
    rw [List.getElem_modify] at hget
    rw [List.length_modify] at hj
    obtain ⟨before, hbefore, hends⟩ := hsame _ (List.getElem_mem hj)
    refine ⟨before, hbefore, hends.trans ?_⟩
    rw [← hget]
    split
    · exact hf _
    · exact .refl _

/-- Only the shapes a call names are written. -/
theorem Writes.kept_unnamed (h : Writes c l l') :
    Kept (fun sh => (idOf sh).all fun id => id ∉ named c) l l' := by
  induction h with
  | refl => exact .refl l
  | tail _ hwrite ih =>
    obtain ⟨i, sh, f, hi, ⟨⟨id, hid, hname⟩, _⟩, _, rfl⟩ := hwrite
    refine ih.trans (.modify fun a ha => ?_)
    rw [hi] at ha
    cases ha
    simp [hname, hid]

/-- A shape that no call names is kept as it is. -/
theorem Effect.kept_unnamed (h : Effect c stored doc') :
    Kept (fun sh => (idOf sh).all fun id => id ∉ named c) (shapes stored) (shapes doc') := by
  cases h with
  | wrote writes => exact writes.kept_unnamed
  | framed frame name put id kept =>
    rw [kept]
    exact .refl _
  | added sh lead adds id ends put after =>
    rw [after]
    exact (Kept.refl _).append _
  | removed i name put found unlocked after =>
    rw [after]
    refine .eraseIdx fun sh hsh => ?_
    obtain ⟨sh', hsh', hid⟩ := Named.place_eq_some found
    rw [hsh] at hsh'
    cases hsh'
    simp [hid, named]
  | copied new name put copyable ids copies after =>
    rw [after]
    exact (Kept.refl _).append _

theorem copyIds_nodup (doc : Json) (ids : List String) : (copyIds doc ids).Nodup := by
  rw [copyIds]
  generalize ids.filter _ = list
  have hindices : ((list.zipIdx 1).map Prod.snd).Nodup := by
    rw [List.zipIdx_map_snd]
    exact List.nodup_range'
  rw [List.Nodup, List.pairwise_map] at hindices ⊢
  have hsep : Char.isDigit '_' = false := by decide
  exact hindices.imp fun {p q} hne heq => hne (Decimal.sep_injective hsep heq).2

/-- A board with more of shapes and frames, all of them under new ids. -/
theorem Sound.more (h : Sound stored) {newShapes newFrames : List Json}
    (hshapes : shapes doc' = shapes stored ++ newShapes)
    (hframes : frames doc' = frames stored ++ newFrames)
    (hidentified : ∀ sh ∈ newShapes ++ newFrames, (idOf sh).isSome = true)
    (hnew : (Named.names idOf (newShapes ++ newFrames)).Nodup)
    (hfresh : ∀ id ∈ Named.names idOf (newShapes ++ newFrames), id ∉ ids stored)
    (hattached : ∀ sh ∈ newShapes, kindOf sh = some "arrow" →
      EndsIn (Named.names idOf (shapes stored)) sh)
    (hselected : ∀ v ∈ selection doc', v ∈ selection stored ∨ ∀ id, v.asStr = some id →
      id ∈ Named.names idOf newShapes) : Sound doc' := by
  have hperm : (shapes doc' ++ frames doc').Perm
      ((shapes stored ++ frames stored) ++ (newShapes ++ newFrames)) := by
    rw [hshapes, hframes, List.append_assoc, List.append_assoc]
    refine List.Perm.append_left _ ?_
    rw [← List.append_assoc, ← List.append_assoc]
    exact List.perm_append_comm.append_right newFrames
  have hgrown : ∀ id ∈ Named.names idOf (shapes stored), id ∈ Named.names idOf (shapes doc') := by
    intro id hid
    rw [hshapes, Named.names_append]
    exact List.mem_append_left _ hid
  refine ⟨?_, ?_, ?_, ?_⟩
  · intro sh hsh
    obtain hold | hin := List.mem_append.mp (hperm.mem_iff.mp hsh)
    · exact h.identified sh hold
    · exact hidentified sh hin
  · have hids : (ids doc').Perm (ids stored ++ Named.names idOf (newShapes ++ newFrames)) := by
      rw [ids, ids, ← Named.names_append]
      exact hperm.filterMap idOf
    rw [hids.nodup_iff, List.nodup_append']
    exact ⟨h.distinct, hnew, fun id hid hin => hfresh id hin hid⟩
  · intro sh hsh hkind
    rw [hshapes] at hsh
    obtain hold | hin := List.mem_append.mp hsh
    · exact (h.attached sh hold hkind).mono hgrown
    · exact (hattached sh hin hkind).mono hgrown
  · intro v hv id hid
    obtain hold | hin := hselected v hv
    · exact hgrown id (h.selected v hold id hid)
    · rw [hshapes, Named.names_append]
      exact List.mem_append_right _ (hin id hid)

theorem Sound.wrote (h : Sound stored) (hwrites : Writes c (shapes stored) (shapes doc'))
    (hframes : frames doc' = frames stored)
    (hselected : ∀ v ∈ selection doc', ∀ id, v.asStr = some id →
      id ∈ Named.names idOf (shapes stored)) : Sound doc' := by
  obtain ⟨hnames, hsame⟩ := hwrites.same
  refine ⟨?_, ?_, ?_, ?_⟩
  · intro sh hsh
    rw [hframes] at hsh
    obtain hin | hin := List.mem_append.mp hsh
    · obtain ⟨before, hbefore, hends⟩ := hsame sh hin
      rw [hends.id]
      exact h.identified before (List.mem_append_left _ hbefore)
    · exact h.identified sh (List.mem_append_right _ hin)
  · have hdistinct := h.distinct
    rw [ids, Named.names_append] at hdistinct ⊢
    rw [hnames, hframes]
    exact hdistinct
  · intro sh hsh hkind
    obtain ⟨before, hbefore, hends⟩ := hsame sh hsh
    rw [hends.kind] at hkind
    rw [hnames]
    exact hends.endsIn (h.attached before hbefore hkind)
  · rw [hnames]
    exact hselected

/-- A board without one of its shapes, which nothing points at. -/
theorem Sound.removed (h : Sound stored) {i : Nat} {sh : Json} {id : String}
    (hsh : (shapes stored)[i]? = some sh) (hid : idOf sh = some id)
    (hshapes : shapes doc' = (shapes stored).eraseIdx i) (hframes : frames doc' = frames stored)
    (hselection : selection doc' = selection stored)
    (harrows : ∀ other ∈ shapes stored, kindOf other = some "arrow" → idOf other ≠ some id →
      ∀ key ∈ ["from", "to"], (other.atKey key).asStr ≠ some id)
    (hselected : ∀ v ∈ selection stored, v.asStr ≠ some id) : Sound doc' := by
  have hids : (Named.names idOf (shapes stored) ++ Named.names idOf (frames stored)).Nodup := by
    rw [← Named.names_append]
    exact h.distinct
  have hdistinct : Named.Distinct idOf (shapes stored) := (List.nodup_append'.mp hids).1
  -- what is left has every id but the one
  have hleft : ∀ id' ∈ Named.names idOf (shapes stored), id' ≠ id →
      id' ∈ Named.names idOf (shapes doc') := by
    intro id' hid' hne
    obtain ⟨other, hother, hname⟩ := Named.mem_names.mp hid'
    obtain ⟨j, hj⟩ := List.mem_iff_getElem?.mp hother
    rw [hshapes]
    refine Named.mem_names.mpr ⟨other, List.mem_eraseIdx_iff_getElem?.mpr ⟨j, ?_, hj⟩, hname⟩
    rintro rfl
    rw [hsh] at hj
    cases hj
    rw [hid] at hname
    exact hne (Option.some.inj hname).symm
  refine ⟨?_, ?_, ?_, ?_⟩
  · intro other hother
    rw [hshapes, hframes] at hother
    obtain hin | hin := List.mem_append.mp hother
    · exact h.identified other (List.mem_append_left _ (List.mem_of_mem_eraseIdx hin))
    · exact h.identified other (List.mem_append_right _ hin)
  · rw [ids, Named.names_append, hshapes, hframes]
    exact ((Named.names_eraseIdx_sublist _ i).append_right _).nodup hids
  · intro other hother hkind key hkey
    rw [hshapes] at hother
    obtain ⟨j, hne, hj⟩ := List.mem_eraseIdx_iff_getElem?.mp hother
    have hmem := List.mem_of_getElem? hj
    have hname : idOf other ≠ some id := fun hname => hne (hdistinct.unique hsh hid hj hname)
    obtain ⟨id', hid', hstr⟩ := h.attached other hmem hkind key hkey
    refine ⟨id', hleft id' hid' ?_, hstr⟩
    rintro rfl
    exact harrows other hmem hkind hname key hkey hstr
  · rw [hselection]
    intro v hv id' hid'
    refine hleft id' (h.selected v hv id' hid') ?_
    rintro rfl
    exact hselected v hv hid'

/-- **One call** keeps a board sound where it meets its condition. -/
theorem Sound.step (h : Sound stored) (hmeets : c.host.docPut 0 = .ok () → Meets c stored) :
    Sound (call N c stored).2 := by
  cases effect_of (N := N) c stored with
  | wrote writes kept selected =>
    refine h.wrote writes kept ?_
    obtain hsame | hnew := selected
    · rw [hsame]
      exact h.selected
    · exact hnew
  | framed frame name put id kept added selected =>
    have hnames : Named.names idOf ([] ++ [frame]) =
        [nextId (load stored) "f" c.host.nowMs] := List.filterMap_cons_some id
    have hshapes : shapes (call N c stored).2 = shapes stored ++ [] := by
      rw [kept, List.append_nil]
    refine h.more hshapes added ?_ ?_ ?_ nofun ?_
    · intro sh hsh
      rw [List.nil_append, List.mem_singleton] at hsh
      rw [hsh, id]
      rfl
    · rw [hnames]
      exact List.nodup_singleton _
    · rw [hnames]
      intro id' hid'
      rw [List.mem_singleton.mp hid']
      exact (hmeets put).framed name
    · rw [selected]
      exact fun v hv => .inl hv
  | added sh lead adds id ends put after kept selected =>
    have hnames : Named.names idOf ([sh] ++ []) =
        [nextId (load stored) lead c.host.nowMs] := List.filterMap_cons_some id
    have hframes : frames (call N c stored).2 = frames stored ++ [] := by
      rw [kept, List.append_nil]
    refine h.more after hframes ?_ ?_ ?_ ?_ ?_
    · intro sh' hsh'
      rw [List.append_nil, List.mem_singleton] at hsh'
      rw [hsh', id]
      rfl
    · rw [hnames]
      exact List.nodup_singleton _
    · rw [hnames]
      intro id' hid'
      rw [List.mem_singleton.mp hid']
      exact (hmeets put).added lead adds
    · intro sh' hsh' hkind
      rw [List.mem_singleton.mp hsh'] at hkind ⊢
      obtain hends | ⟨hname, hparam⟩ := ends hkind
      · exact hends
      · exact absurd hparam ((hmeets put).attached hname)
    · rw [selected]
      exact fun v hv => .inl hv
  | removed i name put found unlocked after kept selected =>
    obtain ⟨sh, hsh, hid⟩ := Named.place_eq_some found
    obtain ⟨harrows, hselected⟩ := (hmeets put).detached name i sh found hsh (unlocked sh hsh)
    exact h.removed hsh hid after kept selected harrows hselected
  | copied new name put copyable hids copies after kept selected =>
    have hframes : frames (call N c stored).2 = frames stored ++ [] := by
      rw [kept, List.append_nil]
    have hnames : Named.names idOf (new ++ []) = copyIds (load stored) (idsOf c.params) := by
      rw [List.append_nil, hids]
    refine h.more after hframes ?_ ?_ ?_ (fun sh hsh hkind => absurd hkind (copies sh hsh).2) ?_
    · rw [List.append_nil]
      exact fun sh hsh => (copies sh hsh).1
    · rw [hnames]
      exact copyIds_nodup _ _
    · rw [hnames]
      exact (hmeets put).copied name copyable
    · intro v hv
      obtain hsame | hnew := selected
      · rw [hsame] at hv
        exact .inl hv
      · rw [hnew] at hv
        obtain ⟨id, hid, rfl⟩ := List.mem_map.mp hv
        refine .inr fun id' hid' => ?_
        cases hid'
        rw [hids]
        exact hid

/-- The document after some calls. -/
@[grind =]
def run (N : Floats) (calls : List ToolCall) (stored : Json) : Json :=
  calls.foldl (fun stored c => (call N c stored).2) stored

theorem run_concat (calls : List ToolCall) (c : ToolCall) (stored : Json) :
    run N (calls ++ [c]) stored = (call N c (run N calls stored)).2 := by
  rw [run, List.foldl_append]
  rfl

theorem sound_empty : Sound (.obj []) := by
  have hshapes : shapes (.obj []) = [] := by
    rw [shapes, load, Json.withDefaults]
    rfl
  have hframes : frames (.obj []) = [] := by
    rw [frames, load, Json.withDefaults]
    rfl
  have hselection : selection (.obj []) = [] := by
    rw [selection, load, Json.withDefaults]
    rfl
  refine ⟨?_, ?_, ?_, ?_⟩
  · rw [hshapes, hframes]
    simp
  · rw [ids, hshapes, hframes]
    exact List.nodup_nil
  · rw [hshapes]
    simp
  · rw [hselection]
    simp

/-- **Ids on the whiteboard**, over every run of its tools from an empty document each of whose
calls meets its condition: the board is sound after the run, and a call that comes then keeps every
shape it does not name. -/
theorem board_sound_of_runs {calls : List ToolCall}
    (h : ∀ before c after, calls = before ++ c :: after → c.host.docPut 0 = .ok () →
      Meets c (run N before (.obj []))) :
    Sound (run N calls (.obj [])) ∧ ∀ c, Kept (fun sh => (idOf sh).all fun id => id ∉ named c)
      (shapes (run N calls (.obj []))) (shapes (call N c (run N calls (.obj []))).2) := by
  refine ⟨?_, fun c => (effect_of c _).kept_unnamed⟩
  induction calls using List.reverseRecOn with
  | nil => exact sound_empty
  | append_singleton calls c ih =>
    rw [run_concat]
    refine (ih fun before c' after hcalls => ?_).step (h calls c [] rfl)
    exact h before c' (after ++ [c]) (by rw [hcalls, List.append_assoc]; rfl)

end Sound

@[grind =]
def note : ToolCall :=
  plainCall "canvas.add_sticky" []

/-- Two of three notes are connected, one of the two is selected, and the third is deleted. -/
def attaching : List ToolCall :=
  [note, note, note, plainCall "canvas.connect" [("from", .str "s1_0"), ("to", .str "s2_0")],
    plainCall "canvas.select" [("ids", .arr [.str "s2_0"])],
    plainCall "canvas.delete" [("id", .str "s3_0")]]

/-- The board that a call of `attaching` comes to. -/
def attachingAt (k : Fin attaching.length) : Json :=
  run wholes (attaching.take k) (.obj [])

theorem attaching_fresh : ∀ k : Fin attaching.length, ∀ lead ∈ ["s", "a"],
    nextId (load (attachingAt k)) lead 0 ∉ ids (attachingAt k) := by
  decide +kernel

theorem attaching_detached : ∀ k : Fin attaching.length, attaching[k].name = "canvas.delete" →
    (∀ other ∈ shapes (attachingAt k), kindOf other = some "arrow" →
      ∀ key ∈ ["from", "to"], (other.atKey key).asStr ≠ some "s3_0") ∧
    ∀ v ∈ selection (attachingAt k), v.asStr ≠ some "s3_0" := by
  decide +kernel

theorem attaching_meets (k : Fin attaching.length) : Meets attaching[k] (attachingAt k) := by
  have hnever : ∀ k : Fin attaching.length, ∀ name ∈ ["canvas.add_shape", "canvas.add_text", "canvas.add_frame",
      "canvas.duplicate"], attaching[k].name ≠ name := by decide
  have hnow : ∀ k : Fin attaching.length, attaching[k].host.nowMs = 0 := by decide
  have hid : ∀ k : Fin attaching.length, attaching[k].name = "canvas.delete" →
      textOf attaching[k].params "id" "" = "s3_0" := by decide
  refine ⟨fun lead hadds => ?_, fun h => absurd h (hnever k _ (by simp)),
    fun h => absurd h (hnever k _ (by simp)), fun h => absurd h (hnever k _ (by simp)),
    fun h i sh _ _ _ => ?_⟩
  · rw [hnow]
    cases hadds with
    | shape name | label name => exact absurd name (hnever k _ (by simp))
    | sticky | connector => exact attaching_fresh k _ (by simp)
  · rw [hid k h]
    obtain ⟨harrows, hselected⟩ := attaching_detached k h
    exact ⟨fun other hother hkind _ => harrows other hother hkind, hselected⟩

theorem board_sound_of_runs_attaching : Sound (run wholes attaching (.obj [])) :=
  (board_sound_of_runs fun before c after hsplit _ => forall_split
    (P := fun before c => Meets c (run wholes before (.obj []))) attaching_meets before c after
      hsplit).1

def deleteFirst : ToolCall :=
  plainCall "canvas.delete" [("id", .str "s1_0")]

/-- The first of two notes is deleted, and a third is added. -/
def replacing : List ToolCall :=
  [note, note, deleteFirst, note]

/-- The first of two connected notes is selected, and deleted. -/
def detaching : List ToolCall :=
  [note, note,
    plainCall "canvas.connect" [("from", .str "s1_0"), ("to", .str "s2_0")],
    plainCall "canvas.select" [("ids", .arr [.str "s1_0"])], deleteFirst]

/-- All in one millisecond: the third note comes under the second one's id; and the deletion leaves
the connector and the selection pointing at a shape that is gone. -/
theorem deleted_unsound :
    ids (run wholes replacing (.obj [])) = ["s2_0", "s2_0"] ∧
      ¬Sound (run wholes replacing (.obj [])) ∧
      ids (run wholes detaching (.obj [])) = ["s2_0", "a3_0"] ∧
      (shapes (run wholes detaching (.obj []))).map (fun sh => (sh.atKey "from").asStr) =
        [none, some "s1_0"] ∧
      (selection (run wholes detaching (.obj []))).map Json.asStr = [some "s1_0"] := by
  have hids : ids (run wholes replacing (.obj [])) = ["s2_0", "s2_0"] := by decide +kernel
  refine ⟨hids, fun hsound => ?_, by decide +kernel, by decide +kernel, by decide +kernel⟩
  have hdistinct := hsound.distinct
  rw [hids] at hdistinct
  exact absurd hdistinct (by decide)

end Whiteboard

end LocalSpace
