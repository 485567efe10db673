import Mathlib.Data.String.Basic
import Mathlib.Tactic.Tauto
import LocalSpace.Proto
import LocalSpace.Library.Fields

/-!
# What a harness's logic is given, and answers

A harness's logic reads its document with `doc-get`, edits the JSON and writes it back with
`doc-put`. A call is pure but for what its host does: whether a write goes through, the time, the
artifact it asks for (`Services`). It answers with a reply (`Reply`), and leaves the document that
was written last.
-/

namespace LocalSpace

open Library

namespace Json

def isObject : Json → Bool
  | .obj _ => true
  | _ => false

/-- `value[key]`: null where there is none. -/
def atKey (j : Json) (key : String) : Json :=
  (j.get? key).getD .null

/-- `value[key] = v`, of an object or of null; of anything else it panics, and is never come to:
what the logics write to is an object they read a key of. -/
@[grind =]
def setKey (j : Json) (key : String) (v : Json) : Json :=
  match j with
  | .obj fields => .obj (insertField key v fields)
  | .null => .obj [(key, v)]
  | j => j

/-- `value.get(0)`. -/
@[grind =]
def first : Json → Option Json
  | .arr (item :: _) => some item
  | _ => none

def asU64 : Json → Option Nat
  | .num (.ofNat n) 0 => if n < 2 ^ 64 then some n else none
  | _ => none

def asI64 : Json → Option Int
  | .num i 0 => if -2 ^ 63 ≤ i ∧ i < 2 ^ 63 then some i else none
  | _ => none

def asBool : Json → Option Bool
  | .bool b => some b
  | _ => none

/-- The key's own value, or `default` where there is none. -/
def withDefault (doc : Json) (key : String) (default : Json) : Json :=
  if (doc.get? key).isNone then doc.setKey key default else doc

/-- A harness's document as its logic reads it: an object, with what it lacks. -/
@[grind =]
def withDefaults (defaults : List (String × Json)) (stored : Json) : Json :=
  defaults.foldl (fun doc d => doc.withDefault d.1 d.2)
    (if stored.isObject then stored else .obj [])

-- a stack of conditions on keys, which nothing should look into
attribute [irreducible] withDefaults

theorem insertField_eq (key : String) (v : Json) (fields : List (String × Json)) :
    insertField key v fields = Fields.put key v fields := by
  induction fields with
  | nil => rfl
  | cons field rest ih =>
    obtain ⟨k, w⟩ := field
    simp only [insertField, Fields.put, ih]

@[simp]
theorem get?_setKey_obj (key : String) (v : Json) (fields : List (String × Json)) :
    ((obj fields).setKey key v).get? key = some v := by
  simp only [setKey, get?, insertField_eq]
  exact Fields.lookup_put_self key v fields

theorem get?_setKey_ne {key key' : String} (h : key' ≠ key) (v j : Json) :
    (j.setKey key v).get? key' = j.get? key' := by
  cases j with
  | obj fields =>
    simp only [setKey, get?, insertField_eq]
    exact Fields.lookup_put_ne h v fields
  | null => simp [setKey, get?, List.lookup_cons, beq_false_of_ne h]
  | _ => rfl

theorem atKey_setKey_ne {key key' : String} (h : key' ≠ key) (v j : Json) :
    (j.setKey key v).atKey key' = j.atKey key' := by
  rw [atKey, atKey, get?_setKey_ne h]

@[simp]
theorem isObject_setKey (key : String) (v : Json) {j : Json} (h : j.isObject = true) :
    (j.setKey key v).isObject = true := by
  cases j <;> first | rfl | cases h

theorem atKey_setKey {j : Json} (h : j.isObject = true) (key : String) (v : Json) :
    (j.setKey key v).atKey key = v := by
  cases j with
  | obj fields => rw [atKey, get?_setKey_obj, Option.getD_some]
  | _ => cases h

/-- An object that has some keys. -/
structure HasAll (keys : List String) (doc : Json) : Prop where
  object : doc.isObject = true
  some : ∀ key ∈ keys, (doc.get? key).isSome = true

section HasAll

variable {doc : Json} {key : String} {keys : List String}

theorem isSome_setKey {key' : String} {v : Json} (hobject : doc.isObject = true)
    (h : key' = key ∨ (doc.get? key').isSome = true) :
    ((doc.setKey key v).get? key').isSome = true := by
  by_cases hkey : key' = key
  · subst hkey
    cases doc with
    | obj fields => rw [get?_setKey_obj, Option.isSome_some]
    | _ => cases hobject
  · rw [get?_setKey_ne hkey]
    exact h.resolve_left hkey

theorem HasAll.setKey (h : HasAll keys doc) (key : String) (v : Json) :
    HasAll keys (doc.setKey key v) where
  object := isObject_setKey key v h.object
  some key' hkey := isSome_setKey h.object (.inr (h.some key' hkey))

theorem HasAll.withDefault (h : HasAll keys doc) (key : String) (v : Json) :
    HasAll (key :: keys) (doc.withDefault key v) := by
  rw [Json.withDefault]
  split
  · refine ⟨isObject_setKey key v h.object, fun key' hkey => isSome_setKey h.object ?_⟩
    obtain rfl | hkey := List.mem_cons.mp hkey
    · exact .inl rfl
    · exact .inr (h.some key' hkey)
  · next hnone =>
    refine ⟨h.object, fun key' hkey => ?_⟩
    obtain rfl | hkey := List.mem_cons.mp hkey
    · simpa [Option.isSome_iff_ne_none] using hnone
    · exact h.some key' hkey

/-- A document read has all that it may lack. -/
theorem hasAll_withDefaults (defaults : List (String × Json)) (stored : Json) :
    HasAll (defaults.map Prod.fst) (withDefaults defaults stored) := by
  have hfold : ∀ (ds : List (String × Json)) {keys : List String} {doc : Json}, HasAll keys doc →
      HasAll (ds.map Prod.fst ++ keys) (ds.foldl (fun doc d => doc.withDefault d.1 d.2) doc) := by
    intro ds
    induction ds with
    | nil => exact id
    | cons d rest ih =>
      intro keys doc h
      obtain ⟨hobject, hsome⟩ := ih (h.withDefault d.1 d.2)
      refine ⟨hobject, fun key hkey => hsome key ?_⟩
      simp only [List.map_cons, List.cons_append, List.mem_cons, List.mem_append] at hkey ⊢
      tauto
  have hstart : HasAll [] (if stored.isObject then stored else .obj []) := by
    refine ⟨?_, fun key hkey => absurd hkey List.not_mem_nil⟩
    split
    · assumption
    · rfl
  have hall := hfold defaults hstart
  rw [List.append_nil] at hall
  rw [withDefaults]
  exact hall

/-- What has all is read as it is. -/
theorem HasAll.withDefaults_eq {defaults : List (String × Json)}
    (h : HasAll (defaults.map Prod.fst) doc) : withDefaults defaults doc = doc := by
  have hfold : ∀ ds : List (String × Json), HasAll (ds.map Prod.fst) doc →
      ds.foldl (fun doc d => doc.withDefault d.1 d.2) doc = doc := by
    intro ds
    induction ds with
    | nil => exact fun _ => rfl
    | cons d rest ih =>
      intro h
      have hd : doc.withDefault d.1 d.2 = doc := by
        rw [Json.withDefault, if_neg]
        simpa [Option.isSome_iff_ne_none] using h.some d.1 List.mem_cons_self
      rw [List.foldl_cons, hd]
      exact ih ⟨h.object, fun key hkey => h.some key (List.mem_cons_of_mem _ hkey)⟩
  rw [withDefaults, if_pos h.object]
  exact hfold defaults h

end HasAll

end Json

/-! ### A call -/

/-- What a tool answers. -/
inductive Reply where
  | ok (result : Json) (diffSummary : String)
  | fail (error : String)
  /-- The code panics, and the call with it. -/
  | trap

def Reply.isOk : Reply → Bool
  | .ok .. => true
  | _ => false

/-- What the host does for one call. -/
structure Services where
  /-- What becomes of the call's `n`-th `doc-put`. -/
  docPut : Nat → Except String Unit
  nowMs : Nat
  artifactGet : String → Except String String
  /-- `serde_json::from_str`. -/
  fromStr : String → Except String Json

/-- One call of a tool: by its name, with its parameters. -/
structure ToolCall where
  name : String
  params : Json
  host : Services

/-- The document written, and the reply; or the write's failure, and the document as it was. -/
def Services.save (host : Services) (n : Nat) (stored doc : Json) (reply : Reply) : Reply × Json :=
  match host.docPut n with
  | .ok () => (reply, doc)
  | .error e => (.fail e, stored)

/-- A tool that fails leaves the document as it was. -/
def Refused (stored : Json) (r : Reply × Json) : Prop :=
  r.1.isOk = false ∧ r.2 = stored

theorem refused_fail (stored : Json) (e : String) : Refused stored (.fail e, stored) :=
  ⟨rfl, rfl⟩

theorem save_cases (host : Services) (n : Nat) (stored doc : Json) (reply : Reply) :
    (host.docPut n = .ok () ∧ host.save n stored doc reply = (reply, doc)) ∨
      (host.docPut n ≠ .ok () ∧ Refused stored (host.save n stored doc reply)) := by
  rw [Services.save]
  cases h : host.docPut n with
  | ok u => exact .inl ⟨rfl, rfl⟩
  | error e => exact .inr ⟨by simp, rfl, rfl⟩

/-- `s(params, key, default)`. -/
abbrev textOf (params : Json) (key default : String) : String :=
  params.strAt key default

/-- `value["id"].as_str()`. -/
@[grind =]
def idOf (j : Json) : Option String :=
  (j.atKey "id").asStr

theorem idOf_setKey {key : String} (h : "id" ≠ key) (v j : Json) :
    idOf (j.setKey key v) = idOf j := by
  rw [idOf, idOf, Json.atKey_setKey_ne h]

end LocalSpace
