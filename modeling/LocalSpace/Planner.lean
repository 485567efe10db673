import Mathlib.Data.List.Induction
import LocalSpace.Harness
import LocalSpace.Library.Decimal
import LocalSpace.Library.Named

/-!
# The planning board

`planner-logic`: the tools of the board, over its document. A card's id is the number of cards
there were when it was made, and one more. So ids name one card each in the runs in which no card
on the board has a number that cards are being added under (`cards_named_iff`); a card deleted from
before the last leaves such a number behind (`deleted_renames`).
-/

namespace LocalSpace.Planner

open Library

/-! ### The document -/

def defaults : List (String × Json) :=
  [("columns", .arr
      [.obj [("name", .str "Backlog"), ("wip", .num 0 0)],
        .obj [("name", .str "In progress"), ("wip", .num 3 0)],
        .obj [("name", .str "Done"), ("wip", .num 0 0)]]),
    ("cards", .arr []), ("title", .str "Planning board")]

@[grind =]
def load (stored : Json) : Json :=
  .withDefaults defaults stored

def columns (doc : Json) : List String :=
  (((doc.atKey "columns").asArray).map fun a => a.filterMap fun c => (c.atKey "name").asStr).getD []

def wipOf (doc : Json) (column : String) : Nat :=
  ((((doc.atKey "columns").asArray).bind fun a =>
    a.find? fun c => (c.atKey "name").asStr = some column).bind fun c =>
      (c.atKey "wip").asU64).getD 0

def countIn (doc : Json) (column : String) : Nat :=
  (((doc.atKey "cards").asArray).map fun a =>
    a.countP fun c => (c.atKey "column").asStr = some column).getD 0

def cardIndex (doc : Json) (id : String) : Option Nat :=
  ((doc.atKey "cards").asArray).bind (Named.place idOf id)

/-- The column asked for, where the board has it, or the first. -/
def chosenColumn (doc params : Json) : Except String String :=
  let all := columns doc
  match (params.get? "column").bind Json.asStr with
  | some c =>
    if all.contains c then .ok c
    else
      let names := ", ".intercalate all
      .error s!"no column `{c}`; this board has {names}"
  | none => .ok (all.head?.getD "Backlog")

/-! ### The tools -/

section Tools

variable (host : Services) (params stored : Json)

def columnsTool : Reply × Json :=
  let doc := load stored
  let cols := (columns doc).map fun name => Json.obj
    [("cards", .num (countIn doc name) 0), ("name", .str name), ("wip", .num (wipOf doc name) 0)]
  (.ok (.obj [("columns", .arr cols)]) s!"{cols.length} column(s)", stored)

/-- What was done, in a line; a column over its limit is told of. -/
def overLimit (doc : Json) (column did : String) : String :=
  let limit := wipOf doc column
  let count := countIn doc column
  if 0 < limit ∧ limit < count then
    s!"{did} 1 card; `{column}` is now {count} over a limit of {limit}"
  else s!"{did} 1 card to `{column}`"

def addCard : Reply × Json :=
  let doc := load stored
  let text := textOf params "text" ""
  if trim text = "" then (.fail "a card needs some text", stored)
  else match chosenColumn doc params with
    | .error e => (.fail e, stored)
    | .ok column =>
      let count := (((doc.atKey "cards").asArray).map List.length).getD 0
      let id := s!"c{count + 1}"
      let card := Json.obj
        [("assignee", params.atKey "assignee"), ("column", .str column), ("id", .str id),
          ("text", .str text)]
      match (doc.atKey "cards").asArray with
      | none => (.trap, stored)
      | some cards =>
        let doc := doc.setKey "cards" (.arr (cards ++ [card]))
        host.save 0 stored doc (.ok (.obj [("column", .str column), ("id", .str id)])
          (overLimit doc column "added"))

/-- One field of the card an id names, written. -/
def writeCard (key : String) (value : Json) (id : String) (reply : Json → Reply) : Reply × Json :=
  let doc := load stored
  match cardIndex doc id with
  | none => (.fail s!"no card `{id}`", stored)
  | some i =>
    match (doc.atKey "cards").asArray with
    | none => (.trap, stored)
    | some cards =>
      let doc := doc.setKey "cards" (.arr (cards.modify i fun c => c.setKey key value))
      host.save 0 stored doc (reply doc)

def moveCard : Reply × Json :=
  let id := textOf params "id" ""
  let column := textOf params "column" ""
  if !(columns (load stored)).contains column then (.fail s!"no column `{column}`", stored)
  else writeCard host stored "column" (.str column) id fun doc =>
    .ok (.obj [("id", .str id)]) (overLimit doc column "moved")

def assign : Reply × Json :=
  let id := textOf params "id" ""
  let who := params.atKey "assignee"
  writeCard host stored "assignee" who id fun _ =>
    .ok (.obj [("id", .str id)]) (if who.isNull then "unassigned 1 card" else "assigned 1 card")

def setText : Reply × Json :=
  let id := textOf params "id" ""
  writeCard host stored "text" (.str (textOf params "text" "")) id fun _ =>
    .ok (.obj [("id", .str id)]) "rewrote 1 card"

def addColumn : Reply × Json :=
  let doc := load stored
  let name := textOf params "name" ""
  if trim name = "" then (.fail "a column needs a name", stored)
  else if (columns doc).contains name then (.fail s!"`{name}` is already a column", stored)
  else
    let wip := ((params.get? "wip").bind Json.asU64).getD 0
    match (doc.atKey "columns").asArray with
    | none => (.trap, stored)
    | some list =>
      let column := Json.obj [("name", .str name), ("wip", .num wip 0)]
      host.save 0 stored (doc.setKey "columns" (.arr (list ++ [column])))
        (.ok (.obj [("name", .str name)]) "added 1 column")

def setWip : Reply × Json :=
  let doc := load stored
  let column := textOf params "column" ""
  let wip := ((params.get? "wip").bind Json.asU64).getD 0
  match (doc.atKey "columns").asArray with
  | none => (.fail "this board has no columns", stored)
  | some list =>
    match list.findIdx? fun c => (c.atKey "name").asStr = some column with
    | none => (.fail s!"no column `{column}`", stored)
    | some i =>
      host.save 0 stored
        (doc.setKey "columns" (.arr (list.modify i fun c => c.setKey "wip" (.num wip 0))))
        (.ok (.obj [("column", .str column), ("wip", .num wip 0)])
          (if wip = 0 then s!"removed the limit on `{column}`"
            else s!"limit on `{column}` is now {wip}"))

def deleteCard : Reply × Json :=
  let doc := load stored
  let id := textOf params "id" ""
  match cardIndex doc id with
  | none => (.fail s!"no card `{id}`", stored)
  | some i =>
    match (doc.atKey "cards").asArray with
    | none => (.trap, stored)
    | some cards =>
      host.save 0 stored (doc.setKey "cards" (.arr (cards.eraseIdx i)))
        (.ok (.obj [("id", .str id)]) "removed 1 card")

def zoom : Reply × Json :=
  let column := (params.get? "column").bind Json.asStr
  let cards := (((load stored).atKey "cards").asArray.getD []).filter fun c =>
    match column with
    | some name => (c.atKey "column").asStr = some name
    | none => true
  (.ok (.obj [("cards", .arr cards)]) s!"{cards.length} card(s) in full", stored)

/-- The items with text of an artifact: of the outline its producer wrote, or else its shapes. -/
def outlineItems (art : Json) : List Json :=
  let content := art.atKey "content"
  let items := ((content.atKey "outline").atKey "items").asArray
  ((items.or ((content.atKey "shapes").asArray)).getD []).filter fun it =>
    trim (((it.atKey "text").asStr).getD "") ≠ ""

/-- The items to import from the artifact an id names, of which there is one at least. -/
def importItems (id : String) : Except String (List Json) := do
  let raw ← host.artifactGet id
  let art ← match host.fromStr raw with
    | .ok art => Except.ok art
    | .error e => .error s!"artifact payload was not JSON: {e}"
  if (art.atKey "kind").asStr ≠ some "outline.v1" then
    let kind := ((art.atKey "kind").asStr).getD "untyped"
    throw s!"`{id}` is {kind}, not outline.v1"
  let items := outlineItems art
  if items.isEmpty then throw s!"`{id}` has no items with text to import"
  return items

/-- The `n`-th card of a board, made of an item. -/
def itemCard (id column : String) (n : Nat) (it : Json) : Json :=
  .obj
    [("assignee", .null), ("column", .str column), ("id", .str s!"c{n}"),
      ("source", .obj [("artifact", .str id), ("item", it.atKey "id")]),
      ("text", it.atKey "text")]

/-- A card for an item, after the cards there are. -/
def importCard (id column : String) (cards : List Json) (it : Json) : List Json :=
  cards ++ [itemCard id column (cards.length + 1) it]

def importOutline : Reply × Json :=
  let doc := load stored
  let id := textOf params "artifact" ""
  match importItems host id with
  | .error e => (.fail e, stored)
  | .ok items =>
    match chosenColumn doc params with
    | .error e => (.fail e, stored)
    | .ok column =>
      match (doc.atKey "cards").asArray with
      | none => (.trap, stored)
      | some cards =>
        let made := items.length
        host.save 0 stored (doc.setKey "cards" (.arr (items.foldl (importCard id column) cards)))
          (.ok (.obj [("cards", .num made 0), ("column", .str column)])
            s!"imported {made} card(s) from {id} into `{column}`")

end Tools

/-- `Planner::call`: the reply, and the document it leaves. -/
@[grind =]
def call (c : ToolCall) (stored : Json) : Reply × Json :=
  match c.name with
  | "board.columns" => columnsTool stored
  | "board.add_card" => addCard c.host c.params stored
  | "board.move_card" => moveCard c.host c.params stored
  | "board.assign" => assign c.host c.params stored
  | "board.set_text" => setText c.host c.params stored
  | "board.add_column" => addColumn c.host c.params stored
  | "board.set_wip" => setWip c.host c.params stored
  | "board.delete_card" => deleteCard c.host c.params stored
  | "board.zoom" => zoom c.params stored
  | "board.import_outline" => importOutline c.host c.params stored
  | other => (.fail s!"`{other}` is not a planning-board tool", stored)

/-- The document a list of calls leaves, in their order. -/
@[grind =]
def run (calls : List ToolCall) (stored : Json) : Json :=
  calls.foldl (fun stored c => (call c stored).2) stored

/-! ### What a document holds -/

@[grind =]
def cards (stored : Json) : List Json :=
  ((load stored).atKey "cards").asArray.getD []

@[grind =]
def cardIds (stored : Json) : List String :=
  Named.names idOf (cards stored)

section Documents

variable {stored : Json}

theorem load_setKey (stored : Json) (key : String) (v : Json) :
    load ((load stored).setKey key v) = (load stored).setKey key v :=
  ((Json.hasAll_withDefaults defaults stored).setKey key v).withDefaults_eq

/-- The cards of a document with its cards written. -/
theorem cards_written (stored : Json) (list : List Json) :
    cards ((load stored).setKey "cards" (.arr list)) = list := by
  have hobject := (Json.hasAll_withDefaults defaults stored).object
  rw [cards, load_setKey, load, Json.atKey_setKey hobject]
  rfl

theorem cards_columns (stored v : Json) :
    cards ((load stored).setKey "columns" v) = cards stored := by
  rw [cards, load_setKey, Json.atKey_setKey_ne (by decide), cards]

theorem cards_of_asArray {list : List Json}
    (h : ((load stored).atKey "cards").asArray = some list) :
    cards stored = list := by
  rw [cards, h, Option.getD_some]

end Documents

/-! ### What a tool does to the cards -/

section Effects

variable {host : Services} {params stored : Json}

theorem writeCard_spec (host : Services) (stored : Json) (key : String) (value : Json)
    (id : String) (reply : Json → Reply) :
    Refused stored (writeCard host stored key value id reply) ∨
      ∃ i, Named.place idOf id (cards stored) = some i ∧
        cards (writeCard host stored key value id reply).2 =
          (cards stored).modify i fun c => c.setKey key value := by
  simp only [writeCard]
  simp only [cardIndex]
  cases hcards : ((load stored).atKey "cards").asArray with
  | none => exact .inl (refused_fail stored _)
  | some list =>
    cases hi : Named.place idOf id list with
    | none =>
      simp only [Option.bind_some, hi]
      exact .inl (refused_fail stored _)
    | some i =>
      simp only [Option.bind_some, hi]
      obtain ⟨_, hsave⟩ | ⟨_, hrefused⟩ := save_cases host 0 stored
        ((load stored).setKey "cards" (.arr (list.modify i fun c => c.setKey key value)))
        (reply ((load stored).setKey "cards" (.arr (list.modify i fun c => c.setKey key value))))
      · refine .inr ⟨i, ?_, ?_⟩
        · rw [cards_of_asArray hcards, hi]
        · rw [hsave, cards_written, cards_of_asArray hcards]
      · exact .inl hrefused

theorem deleteCard_spec (host : Services) (params stored : Json) :
    Refused stored (deleteCard host params stored) ∨
    ∃ i, Named.place idOf (textOf params "id" "") (cards stored) = some i ∧
      cards (deleteCard host params stored).2 = (cards stored).eraseIdx i := by
  simp only [deleteCard, cardIndex]
  cases hcards : ((load stored).atKey "cards").asArray with
  | none => exact .inl (refused_fail stored _)
  | some list =>
    cases hi : Named.place idOf (textOf params "id" "") list with
    | none =>
      simp only [Option.bind_some, hi]
      exact .inl (refused_fail stored _)
    | some i =>
      simp only [Option.bind_some, hi]
      obtain ⟨_, hsave⟩ | ⟨_, hrefused⟩ := save_cases host 0 stored
        ((load stored).setKey "cards" (.arr (list.eraseIdx i)))
        (.ok (.obj [("id", .str (textOf params "id" ""))]) "removed 1 card")
      · refine .inr ⟨i, ?_, ?_⟩
        · rw [cards_of_asArray hcards, hi]
        · rw [hsave, cards_written, cards_of_asArray hcards]
      · exact .inl hrefused

theorem addColumn_cards : cards (addColumn host params stored).2 = cards stored := by
  simp only [addColumn]
  split
  · rfl
  · split
    · rfl
    · split
      · rfl
      · next list _ =>
        obtain ⟨_, hsave⟩ | ⟨_, _, hkept⟩ := save_cases host 0 stored
          ((load stored).setKey "columns" (.arr (list ++ [_]))) (.ok _ "added 1 column")
        · rw [hsave]
          exact cards_columns stored _
        · rw [hkept]

theorem setWip_cards : cards (setWip host params stored).2 = cards stored := by
  simp only [setWip]
  split
  · rfl
  · split
    · rfl
    · obtain ⟨_, hsave⟩ | ⟨_, _, hkept⟩ := save_cases host 0 stored
        ((load stored).setKey "columns" (.arr (List.modify _ _ _))) (.ok _ _)
      · rw [hsave]
        exact cards_columns stored _
      · rw [hkept]

/-- The ids under which cards are added to `n` others. -/
@[grind =]
def newIds (n added : Nat) : List String :=
  (List.range' (n + 1) added).map fun m => s!"c{m}"

theorem newIds_succ (n k : Nat) : newIds n (k + 1) = s!"c{n + 1}" :: newIds (n + 1) k := by
  simp [newIds, List.range'_succ]

theorem mem_newIds {n k : Nat} {id : String} :
    id ∈ newIds n k ↔ ∃ m, n < m ∧ m ≤ n + k ∧ s!"c{m}" = id := by
  rw [newIds, List.mem_map]
  constructor
  · rintro ⟨m, hm, rfl⟩
    rw [List.mem_range'_1] at hm
    exact ⟨m, by omega, by omega, rfl⟩
  · rintro ⟨m, hlow, hhigh, rfl⟩
    exact ⟨m, List.mem_range'_1.mpr ⟨by omega, by omega⟩, rfl⟩

theorem cardId_injective {m n : Nat} (h : s!"c{m}" = s!"c{n}") : m = n := by
  have hlist := congrArg String.toList h
  rw [String.toList_append, String.toList_append, List.append_cancel_left_eq] at hlist
  exact Decimal.toString_injective (String.toList_inj.mp hlist)

theorem newIds_nodup (n k : Nat) : (newIds n k).Nodup := by
  have hrange : (List.range' (n + 1) k).Nodup := List.nodup_range' 1
  exact hrange.map fun _ _ h => cardId_injective h

/-- Cards imported stand after those there are, under the ids that follow. -/
theorem importCard_foldl (id column : String) (items list : List Json) :
    ∃ new, items.foldl (importCard id column) list = list ++ new ∧
      Named.names idOf new = newIds list.length items.length := by
  induction items generalizing list with
  | nil => exact ⟨[], by simp, rfl⟩
  | cons it rest ih =>
    obtain ⟨new, hfold, hids⟩ := ih (importCard id column list it)
    refine ⟨itemCard id column (list.length + 1) it :: new, ?_, ?_⟩
    · rw [List.foldl_cons, hfold, importCard, List.append_assoc, List.singleton_append]
    · have hlength : (importCard id column list it).length = list.length + 1 := by
        rw [importCard, List.length_append, List.length_singleton]
      have hid : idOf (itemCard id column (list.length + 1) it) = some s!"c{list.length + 1}" := rfl
      rw [hlength] at hids
      rw [List.length_cons, newIds_succ, ← hids]
      exact List.filterMap_cons_some hid

/-- How many cards a call is about to add to the board. -/
@[grind =]
def adds (c : ToolCall) (stored : Json) : Nat :=
  match c.name with
  | "board.add_card" =>
    if trim (textOf c.params "text" "") ≠ "" ∧ (chosenColumn (load stored) c.params).isOk = true
    then 1 else 0
  | "board.import_outline" =>
    if (chosenColumn (load stored) c.params).isOk = true
    then ((importItems c.host (textOf c.params "artifact" "")).toOption.map List.length).getD 0
    else 0
  | _ => 0

/-- Cards added to a board: none, where the tool refuses, or those it was to add. -/
def Added (stored : Json) (n : Nat) (host : Services) (r : Reply × Json) : Prop :=
  (Refused stored r ∧ (n = 0 ∨ host.docPut 0 ≠ .ok () ∨ cards stored = [])) ∨
    (host.docPut 0 = .ok () ∧ ∃ new, cards r.2 = cards stored ++ new ∧
      Named.names idOf new = newIds (cards stored).length n)

theorem addCard_added {c : ToolCall} (stored : Json) (hname : c.name = "board.add_card") :
    Added stored (adds c stored) c.host (addCard c.host c.params stored) ∧
      ∀ result summary, (addCard c.host c.params stored).1 = .ok result summary →
        idOf result = some s!"c{(cards stored).length + 1}" ∧ adds c stored = 1 ∧
          c.host.docPut 0 = .ok () := by
  have hadds : adds c stored = if trim (textOf c.params "text" "") ≠ "" ∧
      (chosenColumn (load stored) c.params).isOk = true then 1 else 0 := by
    simp only [adds, hname]
  simp only [addCard]
  by_cases htext : trim (textOf c.params "text" "") = ""
  · rw [if_neg (fun h => h.1 htext)] at hadds
    rw [if_pos htext]
    exact ⟨.inl ⟨refused_fail stored _, .inl hadds⟩, nofun⟩
  · rw [if_neg htext]
    cases hcolumn : chosenColumn (load stored) c.params with
    | error e =>
      rw [hcolumn, if_neg (fun h => nomatch h.2)] at hadds
      exact ⟨.inl ⟨refused_fail stored _, .inl hadds⟩, nofun⟩
    | ok column =>
      rw [hcolumn, if_pos ⟨htext, rfl⟩] at hadds
      cases hcards : ((load stored).atKey "cards").asArray with
      | none =>
        have hnone : cards stored = [] := by rw [cards, hcards, Option.getD_none]
        exact ⟨.inl ⟨⟨rfl, rfl⟩, .inr (.inr hnone)⟩, nofun⟩
      | some list =>
        have hlist := cards_of_asArray hcards
        dsimp only [Option.map_some, Option.getD_some]
        rw [← hlist, hadds]
        generalize hcard : Json.obj [("assignee", c.params.atKey "assignee"),
          ("column", .str column), ("id", .str s!"c{(cards stored).length + 1}"),
          ("text", .str (textOf c.params "text" ""))] = card
        have hid : idOf card = some s!"c{(cards stored).length + 1}" := by
          rw [← hcard]
          rfl
        obtain ⟨hput, hsave⟩ | ⟨hput, hrefused⟩ := save_cases c.host 0 stored
          ((load stored).setKey "cards" (.arr (cards stored ++ [card])))
          (.ok (.obj [("column", .str column), ("id", .str s!"c{(cards stored).length + 1}")])
            (overLimit ((load stored).setKey "cards" (.arr (cards stored ++ [card]))) column
              "added"))
        · rw [hsave]
          refine ⟨.inr ⟨hput, [card], cards_written stored _, ?_⟩, ?_⟩
          · exact List.filterMap_cons_some hid
          · intro result summary h
            cases h
            exact ⟨rfl, rfl, hput⟩
        · refine ⟨.inl ⟨hrefused, .inr (.inl hput)⟩, ?_⟩
          intro result summary h
          rw [Refused, h] at hrefused
          cases hrefused.1

theorem importOutline_added {c : ToolCall} (stored : Json)
    (hname : c.name = "board.import_outline") :
    Added stored (adds c stored) c.host (importOutline c.host c.params stored) := by
  have hadds : adds c stored = if (chosenColumn (load stored) c.params).isOk = true
      then ((importItems c.host (textOf c.params "artifact" "")).toOption.map List.length).getD 0
      else 0 := by
    simp only [adds, hname]
  simp only [importOutline]
  cases hitems : importItems c.host (textOf c.params "artifact" "") with
  | error e =>
    have hzero : adds c stored = 0 := by
      rw [hadds, hitems]
      split
      · rfl
      · rfl
    exact .inl ⟨refused_fail stored _, .inl hzero⟩
  | ok items =>
    cases hcolumn : chosenColumn (load stored) c.params with
    | error e =>
      rw [hcolumn, if_neg nofun] at hadds
      exact .inl ⟨refused_fail stored _, .inl hadds⟩
    | ok column =>
      have hok : (Except.ok column : Except String String).isOk = true := rfl
      rw [hcolumn, if_pos hok, hitems] at hadds
      cases hcards : ((load stored).atKey "cards").asArray with
      | none =>
        have hnone : cards stored = [] := by rw [cards, hcards, Option.getD_none]
        exact .inl ⟨⟨rfl, rfl⟩, .inr (.inr hnone)⟩
      | some list =>
        have hlist := cards_of_asArray hcards
        have hlength : adds c stored = items.length := hadds
        dsimp only
        rw [← hlist, hlength]
        obtain ⟨new, hfold, hids⟩ :=
          importCard_foldl (textOf c.params "artifact" "") column items (cards stored)
        obtain ⟨hput, hsave⟩ | ⟨hput, hrefused⟩ := save_cases c.host 0 stored
          ((load stored).setKey "cards" (.arr (items.foldl
            (importCard (textOf c.params "artifact" "") column) (cards stored))))
          (.ok (.obj [("cards", .num items.length 0), ("column", .str column)]) _)
        · rw [hsave]
          exact .inr ⟨hput, new, (cards_written stored _).trans hfold, hids⟩
        · exact .inl ⟨hrefused, .inr (.inl hput)⟩

/-- The tools that write a field of the card their id names. -/
@[grind =]
def editing : List String :=
  ["board.move_card", "board.assign", "board.set_text"]

theorem edited_spec {c : ToolCall} (stored : Json) (hname : c.name ∈ editing) :
    Refused stored (call c stored) ∨ ∃ i key value, "id" ≠ key ∧
      Named.place idOf (textOf c.params "id" "") (cards stored) = some i ∧
      cards (call c stored).2 = (cards stored).modify i fun card => card.setKey key value := by
  have hwrite : ∀ {key value reply}, "id" ≠ key →
      Refused stored (writeCard c.host stored key value (textOf c.params "id" "") reply) ∨
      ∃ i key' value', "id" ≠ key' ∧
        Named.place idOf (textOf c.params "id" "") (cards stored) = some i ∧
        cards (writeCard c.host stored key value (textOf c.params "id" "") reply).2 =
          (cards stored).modify i fun card => card.setKey key' value' := by
    intro key value reply hkey
    obtain hrefused | ⟨i, hi, hafter⟩ :=
      writeCard_spec c.host stored key value (textOf c.params "id" "") reply
    · exact .inl hrefused
    · exact .inr ⟨i, key, value, hkey, hi, hafter⟩
  simp only [editing, List.mem_cons, List.not_mem_nil, or_false] at hname
  obtain hname | hname | hname := hname
  · simp only [call, hname, moveCard]
    split
    · exact .inl (refused_fail stored _)
    · exact hwrite (by decide)
  · simp only [call, hname, assign]
    exact hwrite (by decide)
  · simp only [call, hname, setText]
    exact hwrite (by decide)

/-- The other tools leave the cards as they were. -/
theorem kept_cards {c : ToolCall} (hedit : c.name ∉ editing)
    (hdelete : c.name ≠ "board.delete_card") (hadd : c.name ≠ "board.add_card") (himport : c.name ≠ "board.import_outline") :
    cards (call c stored).2 = cards stored := by
  simp only [editing, List.mem_cons, List.not_mem_nil, or_false, not_or] at hedit
  obtain ⟨hmove, hassign, htext⟩ := hedit
  simp only [call]
  split
  · rfl
  · exact absurd ‹_› hadd
  · exact absurd ‹_› hmove
  · exact absurd ‹_› hassign
  · exact absurd ‹_› htext
  · exact addColumn_cards
  · exact setWip_cards
  · exact absurd ‹_› hdelete
  · rfl
  · exact absurd ‹_› himport
  · rfl

end Effects

/-! ### Runs -/

/-- What an id names, around one call: one card before it and after it, which alone a tool that
names it changes; and a card added has an id that was no card's. -/
structure NamesOne (stored : Json) (c : ToolCall) : Prop where
  before : Named.Distinct idOf (cards stored)
  after : Named.Distinct idOf (cards (call c stored).2)
  edited : c.name ∈ editing → (call c stored).1.isOk = true →
    Named.Only idOf (textOf c.params "id" "") (cards stored) (cards (call c stored).2)
  deleted : c.name = "board.delete_card" → (call c stored).1.isOk = true →
    Named.Removed idOf (textOf c.params "id" "") (cards stored) (cards (call c stored).2)
  added : c.name = "board.add_card" → ∀ result summary, (call c stored).1 = .ok result summary →
    ∃ id, idOf result = some id ∧ id ∉ cardIds stored

/-- The ids that cards are about to be added under are no card's. -/
def Fresh (stored : Json) (c : ToolCall) : Prop :=
  c.host.docPut 0 = .ok () →
    ∀ id ∈ newIds (cards stored).length (adds c stored), id ∉ cardIds stored

section Runs

variable {stored : Json} {c : ToolCall}

/-- Cards added keep the ids distinct exactly where theirs are new. -/
theorem Added.distinct_iff {n : Nat} {r : Reply × Json} (h : Added stored n c.host r)
    (hdistinct : Named.Distinct idOf (cards stored)) :
    Named.Distinct idOf (cards r.2) ↔ (c.host.docPut 0 = .ok () →
      ∀ id ∈ newIds (cards stored).length n, id ∉ cardIds stored) := by
  obtain ⟨⟨_, hkept⟩, hnone⟩ | ⟨hput, new, hcards, hids⟩ := h
  · rw [hkept]
    refine iff_of_true hdistinct fun hput id hid => ?_
    obtain rfl | hfails | hempty := hnone
    · simp [newIds] at hid
    · exact absurd hput hfails
    · rw [cardIds, hempty]
      exact List.not_mem_nil
  · rw [Named.Distinct, hcards, Named.names_append, hids, List.nodup_append']
    constructor
    · rintro ⟨_, _, hdisjoint⟩ _ id hid hmem
      exact hdisjoint hmem hid
    · intro hnew
      exact ⟨hdistinct, newIds_nodup _ _, fun id hmem hid => hnew hput id hid hmem⟩

theorem fresh_of_adds (h : adds c stored = 0) : Fresh stored c := by
  intro _ id hid
  rw [h] at hid
  simp [newIds] at hid

theorem adds_eq_zero (hadd : c.name ≠ "board.add_card")
    (himport : c.name ≠ "board.import_outline") :
    adds c stored = 0 := by
  simp only [adds]

/-- **One call**: an id names one card around it exactly where what it adds is fresh. -/
theorem namesOne_iff (hdistinct : Named.Distinct idOf (cards stored)) :
    NamesOne stored c ↔ Fresh stored c := by
  by_cases hadd : c.name = "board.add_card"
  · have hcall : call c stored = addCard c.host c.params stored := by simp only [call, hadd]
    obtain ⟨hadded, hresult⟩ := addCard_added stored hadd
    have hiff := hadded.distinct_iff hdistinct
    rw [← hcall] at hiff hresult
    constructor
    · exact fun h => hiff.mp h.after
    · intro hfresh
      refine ⟨hdistinct, hiff.mpr hfresh, ?_, ?_, ?_⟩
      · intro hedit
        simp [hadd, editing] at hedit
      · intro hdelete
        simp [hadd] at hdelete
      · intro _ result summary h
        obtain ⟨hid, hone, hput⟩ := hresult result summary h
        refine ⟨_, hid, hfresh hput _ (mem_newIds.mpr ⟨_, ?_, ?_, rfl⟩)⟩
        · omega
        · omega
  · by_cases himport : c.name = "board.import_outline"
    · have hcall : call c stored = importOutline c.host c.params stored := by
        simp only [call, himport]
      have hiff := (importOutline_added stored himport).distinct_iff hdistinct
      rw [← hcall] at hiff
      constructor
      · exact fun h => hiff.mp h.after
      · intro hfresh
        refine ⟨hdistinct, hiff.mpr hfresh, ?_, ?_, fun h => absurd h hadd⟩
        · intro hedit
          simp [himport, editing] at hedit
        · intro hdelete
          simp [himport] at hdelete
    · refine iff_of_true ?_ (fresh_of_adds (adds_eq_zero hadd himport))
      by_cases hedit : c.name ∈ editing
      · have hdelete : c.name ≠ "board.delete_card" := by
          rintro h
          simp [h, editing] at hedit
        obtain ⟨hfails, hkept⟩ | ⟨i, key, value, hkey, hi, hafter⟩ := edited_spec stored hedit
        · refine ⟨hdistinct, ?_, ?_, fun h => absurd h hdelete, fun h => absurd h hadd⟩
          · rw [hkept]
            exact hdistinct
          · intro _ hok
            rw [hfails] at hok
            cases hok
        · have hid : ∀ card : Json, idOf (card.setKey key value) = idOf card :=
            fun card => idOf_setKey hkey value card
          refine ⟨hdistinct, ?_, ?_, fun h => absurd h hdelete, fun h => absurd h hadd⟩
          · rw [hafter]
            exact hdistinct.modify hid
          · intro _ _
            rw [hafter]
            exact hdistinct.only hid hi
      · by_cases hdelete : c.name = "board.delete_card"
        · have hcall : call c stored = deleteCard c.host c.params stored := by
            simp only [call, hdelete]
          obtain ⟨hfails, hkept⟩ | ⟨i, hi, hafter⟩ :=
            deleteCard_spec c.host c.params stored
          · rw [← hcall] at hfails hkept
            refine ⟨hdistinct, ?_, fun h => absurd h hedit, ?_, fun h => absurd h hadd⟩
            · rw [hkept]
              exact hdistinct
            · intro _ hok
              rw [hfails] at hok
              cases hok
          · rw [← hcall] at hafter
            refine ⟨hdistinct, ?_, fun h => absurd h hedit, ?_, fun h => absurd h hadd⟩
            · rw [hafter]
              exact hdistinct.eraseIdx i
            · intro _ _
              rw [hafter]
              exact hdistinct.removed hi
        · refine ⟨hdistinct, ?_, fun h => absurd h hedit, fun h => absurd h hdelete,
            fun h => absurd h hadd⟩
          rw [kept_cards hedit hdelete hadd himport]
          exact hdistinct

/-- An empty document has no cards. -/
theorem distinct_empty : Named.Distinct idOf (cards (.obj [])) := by
  have hids : cardIds (.obj []) = [] := by decide +kernel
  rw [Named.Distinct, ← cardIds, hids]
  exact List.nodup_nil

theorem run_concat (calls : List ToolCall) (c : ToolCall) (stored : Json) :
    run (calls ++ [c]) stored = (call c (run calls stored)).2 := by
  rw [run, List.foldl_append]
  rfl

/-- **Cards and their ids**, over every run of the board's tools from an empty document: an id names
one card around every call exactly where, whenever cards are added, none of the ids they are added
under is one that a card has. -/
theorem cards_named_iff (calls : List ToolCall) :
    (∀ before c after, calls = before ++ c :: after → NamesOne (run before (.obj [])) c) ↔
      ∀ before c after, calls = before ++ c :: after → Fresh (run before (.obj [])) c := by
  constructor
  · intro h before c after hcalls
    have hone := h before c after hcalls
    exact (namesOne_iff hone.before).mp hone
  · intro h before
    -- over the calls before: the ids were distinct after each
    induction before using List.reverseRecOn with
    | nil =>
      intro c after hcalls
      exact (namesOne_iff distinct_empty).mpr (h [] c after hcalls)
    | append_singleton before last ih =>
      intro c after hcalls
      have hlast := ih last (c :: after) (by rw [hcalls, List.append_assoc]; rfl)
      refine (namesOne_iff ?_).mpr (h _ c after hcalls)
      rw [run_concat]
      exact hlast.after

end Runs

/-- A host whose writes all go through. -/
def plainHost : Services where
  docPut _ := .ok ()
  nowMs := 0
  artifactGet id := .error s!"no artifact `{id}`"
  fromStr _ := .error "expected value at line 1 column 1"

@[grind =]
def added (text : String) : ToolCall :=
  ⟨"board.add_card", .obj [("text", .str text)], plainHost⟩

/-- Two cards, the first of them deleted, and a third. -/
def replacing : List ToolCall :=
  [added "one", added "two", ⟨"board.delete_card", .obj [("id", .str "c1")], plainHost⟩,
    added "three"]

/-- The third card comes under the second one's id. -/
theorem deleted_renames : cardIds (run replacing (.obj [])) = ["c2", "c2"] ∧
    ¬Named.Distinct idOf (cards (run replacing (.obj []))) := by
  have hids : cardIds (run replacing (.obj [])) = ["c2", "c2"] := by decide +kernel
  refine ⟨hids, ?_⟩
  rw [Named.Distinct, ← cardIds, hids]
  decide

end LocalSpace.Planner
