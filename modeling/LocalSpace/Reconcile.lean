import Mathlib.Data.List.Induction
import Mathlib.Data.String.Basic
import LocalSpace.Harness
import LocalSpace.Host
import LocalSpace.Library.Fields

/-!
# A document's JSON written into it

`docs.rs`: `apply_json`, which writes a whole JSON object into an Automerge document field by
field, `diff_changes`, which counts what differs between two projections, and the projection
itself. Automerge is a sequential tree of maps, lists, text objects and scalars; a map's entries
stand in the order of their keys, as `serde_json`'s do.
-/

namespace LocalSpace

open Library

namespace Changes

/-- `Changes::merge`. -/
@[grind =]
def merge (a b : Changes) : Changes :=
  ⟨a.added + b.added, a.removed + b.removed, a.changed + b.changed⟩

end Changes

/-- A scalar of a document. A float is a mantissa with a decimal exponent, where it is finite. -/
inductive Scalar where
  | null
  | boolean (b : Bool)
  | str (s : String)
  | int (i : Int)
  | uint (u : Nat)
  | counter (value : Int)
  | timestamp (t : Int)
  | f64 (value : Option (Int × Int))
  | bytes (b : Bytes)
  | unknown (typeCode : UInt8) (b : Bytes)

/-- What a document is made of. -/
inductive Node where
  | map (entries : List (String × Node))
  | list (items : List Node)
  | text (content : String)
  | scalar (s : Scalar)

namespace Json

/-- A JSON value as `serde_json` holds it: the keys of its objects ascend. -/
inductive Ordered : Json → Prop
  | null : Ordered .null
  | bool (b : Bool) : Ordered (.bool b)
  | num (m e : Int) : Ordered (.num m e)
  | str (s : String) : Ordered (.str s)
  | arr {items : List Json} (hitems : ∀ v ∈ items, Ordered v) : Ordered (.arr items)
  | obj {fields : List (String × Json)} (hkeys : Fields.Ordered fields)
      (hfields : ∀ f ∈ fields, Ordered f.2) : Ordered (.obj fields)

@[grind =]
def isArray : Json → Bool
  | .arr _ => true
  | _ => false

/-- Whether two values that are not both objects and not both arrays are the same. -/
@[grind =]
def sameLeaf : Json → Json → Bool
  | .null, .null => true
  | .bool a, .bool b => a = b
  | .num m e, .num m' e' => m = m' ∧ e = e'
  | .str a, .str b => a = b
  | _, _ => false

end Json

/-! ### The projection -/

/-- `AutoSerde`, where it writes something of its own: text objects, bytes, and scalars of a type
this Automerge does not know. -/
structure AutoSerde where
  text : String → Json
  bytes : Bytes → Json
  unknown : UInt8 → Bytes → Json

namespace AutoSerde

variable (S : AutoSerde)

def scalar : Scalar → Json
  | .null => .null
  | .boolean b => .bool b
  | .str s => .str s
  | .int i => .num i 0
  | .uint u => .num u 0
  | .counter value => .num value 0
  | .timestamp t => .num t 0
  | .f64 (some (m, e)) => .num m e
  | .f64 none => .null
  | .bytes b => S.bytes b
  | .unknown t b => S.unknown t b

mutual

/-- `DocStore::json`. -/
@[grind =]
def json : Node → Json
  | .map entries => .obj (jsonEntries entries)
  | .list items => .arr (jsonItems items)
  | .text content => S.text content
  | .scalar s => S.scalar s

@[grind =]
def jsonEntries : List (String × Node) → List (String × Json)
  | [] => []
  | (key, node) :: rest => (key, json node) :: jsonEntries rest

@[grind =]
def jsonItems : List Node → List Json
  | [] => []
  | node :: rest => json node :: jsonItems rest

end

end AutoSerde

/-! ### The diff of two projections -/

mutual

/-- `diff_into`, from no changes. -/
@[grind =]
def diffChanges : Json → Json → Changes
  | .obj a, .obj b =>
    (diffFields a b).merge
      { removed := (a.filter fun f => (b.lookup f.1).isNone).length }
  | .arr a, .arr b =>
    (diffItems a b).merge { added := b.length - a.length, removed := a.length - b.length }
  | a, b => if a.sameLeaf b then {} else { changed := 1 }

@[grind =]
def diffFields (a : List (String × Json)) : List (String × Json) → Changes
  | [] => {}
  | (key, v) :: rest =>
    Changes.merge
      (match a.lookup key with
        | none => { added := 1 }
        | some prev => diffChanges prev v)
      (diffFields a rest)

def diffItems : List Json → List Json → Changes
  | prev :: a, v :: b => (diffChanges prev v).merge (diffItems a b)
  | _, _ => {}

end

/-! ### Reconciliation -/

/-- An operation on a document that does not fit it. -/
inductive DocError where
  | index
  | root

/-- `put` at an index. -/
def putAt (items : List Node) (i : Nat) (node : Node) : Except DocError (List Node) :=
  if i < items.length then .ok (items.set i node) else .error .index

/-- `insert` at an index. -/
def insertAt (items : List Node) (i : Nat) (node : Node) : Except DocError (List Node) :=
  if i ≤ items.length then .ok (items.insertIdx i node) else .error .index

/-- `delete` at an index. -/
def deleteAt (items : List Node) (i : Nat) : Except DocError (List Node) :=
  if i < items.length then .ok (items.eraseIdx i) else .error .index

/-- The items past a length are deleted, from the end. -/
def trimItems (n : Nat) : Nat → List Node → Except DocError (List Node × Changes)
  | 0, items => .ok (items, {})
  | len + 1, items =>
    if n < len + 1 then do
      let items ← deleteAt items len
      let (items, changes) ← trimItems n len items
      return (items, Changes.merge { removed := 1 } changes)
    else .ok (items, {})

/-- The keys that are not wanted are deleted. -/
@[grind =]
def trimFields (fields : List (String × Json)) (entries : List (String × Node)) :
    List (String × Node) × Changes :=
  (entries.filter fun e => (fields.lookup e.1).isSome,
    { removed := (entries.filter fun e => (fields.lookup e.1).isNone).length })

def scalarToJson : Scalar → Json
  | .null => .null
  | .boolean b => .bool b
  | .str s => .str s
  | .int i => .num i 0
  | .uint u => .num u 0
  | .counter value => .num value 0
  | .timestamp t => .num t 0
  | .f64 (some (m, e)) => .num m e
  | .f64 none => .null
  | .bytes b => .str s!"bytes:{b.length}"
  | .unknown _ _ => .null

/-- The scalar a number is written as: an `i64` or else a `u64` where it is one. -/
def numberScalar (m e : Int) : Scalar :=
  if e = 0 ∧ -(2 ^ 63) ≤ m ∧ m < 2 ^ 63 then .int m
  else if e = 0 ∧ 0 ≤ m ∧ m < 2 ^ 64 then .uint m.toNat
  else .f64 (some (m, e))

mutual

/-- A map is reconciled: the keys that are not wanted go first. -/
@[grind =]
def reconcileMap (entries : List (String × Node)) (next : List (String × Json)) :
    Except DocError (List (String × Node) × Changes) := do
  let (kept, removed) := trimFields next entries
  let (entries, changes) ← reconcileFields kept next
  return (entries, removed.merge changes)
termination_by (sizeOf next, 1)

/-- The wanted keys of a map, one by one. -/
@[grind =]
def reconcileFields (entries : List (String × Node)) :
    List (String × Json) → Except DocError (List (String × Node) × Changes)
  | [] => .ok (entries, {})
  | (key, v) :: rest => do
    let (node, changes) ← reconcileProp (entries.lookup key) v
    let (entries, more) ← reconcileFields (Fields.put key node entries) rest
    return (entries, changes.merge more)
termination_by next => (sizeOf next, 0)

/-- A list is reconciled: the items past the wanted length go first. -/
@[grind =]
def reconcileList (items : List Node) (next : List Json) :
    Except DocError (List Node × Changes) := do
  let (kept, removed) ← trimItems next.length items.length items
  let (items, changes) ← reconcileItems kept 0 kept.length next
  return (items, removed.merge changes)
termination_by (sizeOf next, 1)

/-- The wanted items of a list from index `i`, where `len` of them were there. -/
@[grind =]
def reconcileItems (items : List Node) (i len : Nat) :
    List Json → Except DocError (List Node × Changes)
  | [] => .ok (items, {})
  | v :: rest =>
    if i < len then do
      let (node, changes) ← reconcileProp items[i]? v
      let items ← putAt items i node
      let (items, more) ← reconcileItems items (i + 1) len rest
      return (items, changes.merge more)
    else do
      let items ← insertAt items i (← putJson v)
      let (items, more) ← reconcileItems items (i + 1) len rest
      return (items, Changes.merge { added := 1 } more)
termination_by next => (sizeOf next, 0)

/-- A property is reconciled: what sits there afterwards, and how many changes that took. -/
@[grind =]
def reconcileProp : Option Node → Json → Except DocError (Node × Changes)
  -- same shape: only the leaves that differ change
  | some (.map entries), .obj fields => do
    let (entries, changes) ← reconcileMap entries fields
    return (.map entries, changes)
  | some (.list items), .arr next => do
    let (items, changes) ← reconcileList items next
    return (.list items, changes)
  | some (.scalar s), next =>
    if !next.isObject && !next.isArray && (scalarToJson s).sameLeaf next then .ok (.scalar s, {})
    else do
      return (← putJson next, { changed := 1 })
  | none, next => do
    return (← putJson next, { added := 1 })
  -- the shape changed
  | some _, next => do
    return (← putJson next, { changed := 1 })
termination_by _ next => (sizeOf next, 1)

/-- `put_json` and `insert_json`: what is written for a value. -/
def putJson : Json → Except DocError Node
  | .obj fields => do
    let (entries, _) ← reconcileMap [] fields
    return .map entries
  | .arr items => do
    return .list (← insertItems [] 0 items)
  | .null => .ok (.scalar .null)
  | .bool b => .ok (.scalar (.boolean b))
  | .str s => .ok (.scalar (.str s))
  | .num m e => .ok (.scalar (numberScalar m e))
termination_by next => (sizeOf next, 0)

def insertItems (items : List Node) (i : Nat) : List Json → Except DocError (List Node)
  | [] => .ok items
  | v :: rest => do
    let items ← insertAt items i (← putJson v)
    insertItems items (i + 1) rest
termination_by next => (sizeOf next, 0)

end

/-- `apply_json` on a document's root, which must be an object. -/
@[grind =]
def AutoCommit.applyJson (root : List (String × Node)) :
    Json → Except DocError (List (String × Node) × Changes)
  | .obj fields => reconcileMap root fields
  | _ => .error .root

/-! ### Small facts about what is counted, written and projected -/

namespace Changes

@[simp]
theorem merge_none (a : Changes) : a.merge {} = a :=
  rfl

@[simp]
theorem none_merge (a : Changes) : Changes.merge {} a = a := by
  simp [merge]

theorem merge_eq_none {a b : Changes} (h : a.merge b = {}) : a = {} ∧ b = {} := by
  obtain ⟨aa, ar, ac⟩ := a
  obtain ⟨ba, br, bc⟩ := b
  simp only [merge, Changes.mk.injEq] at h ⊢
  omega

end Changes

namespace Json

theorem sameLeaf_eq {a b : Json} (h : a.sameLeaf b = true) : a = b := by
  cases a <;> cases b <;> simp_all [sameLeaf]

theorem sameLeaf_self {a : Json} (hobj : a.isObject = false) (harr : a.isArray = false) :
    a.sameLeaf a = true := by
  cases a <;> simp_all [sameLeaf, isObject, isArray]

end Json

/-- Two values not both objects and not both arrays differ by one change or none. -/
theorem diffChanges_leaf {a b : Json} (hobj : a.isObject = false ∨ b.isObject = false)
    (harr : a.isArray = false ∨ b.isArray = false) :
    diffChanges a b = if a.sameLeaf b then {} else { changed := 1 } := by
  cases a <;> cases b <;> simp_all [diffChanges, Json.isObject, Json.isArray]

theorem scalarToJson_leaf (s : Scalar) :
    (scalarToJson s).isObject = false ∧ (scalarToJson s).isArray = false := by
  cases s with
  | f64 value => cases value <;> exact ⟨rfl, rfl⟩
  | _ => exact ⟨rfl, rfl⟩

theorem putAt_append (done : List Node) (c node : Node) (cur : List Node) :
    putAt (done ++ c :: cur) done.length node = .ok (done ++ [node] ++ cur) := by
  unfold putAt
  rw [if_pos (by simp)]
  simp

theorem insertAt_end (items : List Node) (node : Node) :
    insertAt items items.length node = .ok (items ++ [node]) := by
  unfold insertAt
  rw [if_pos (Nat.le_refl _), List.insertIdx_length_self]

theorem trimItems_eq (n : Nat) (items : List Node) :
    trimItems n items.length items = .ok (items.take n, { removed := items.length - n }) := by
  induction items using List.reverseRecOn with
  | nil => simp [trimItems]
  | append_singleton items last ih =>
    rw [List.length_append, List.length_singleton, trimItems]
    split
    · next hlt =>
      have hdelete : deleteAt (items ++ [last]) items.length = .ok items := by
        unfold deleteAt
        rw [if_pos (by simp), List.eraseIdx_append_of_length_le (Nat.le_refl _)]
        simp
      simp only [hdelete, bind, Except.bind, ih, pure, Except.pure]
      rw [List.take_append_of_le_length (by omega)]
      simp only [Changes.merge, Except.ok.injEq, Prod.mk.injEq, Changes.mk.injEq, true_and,
        and_true]
      omega
    · rw [List.take_of_length_le (by simp; omega)]
      simp only [Except.ok.injEq, Prod.mk.injEq, Changes.mk.injEq, true_and, and_true]
      omega

/-- Nowhere does a value have, where the node has a scalar, the very value that `scalar_to_json`
reads that scalar as, while it is projected as another. -/
inductive Node.Fits (S : AutoSerde) : Node → Json → Prop
  | map {entries : List (String × Node)} {fields : List (String × Json)}
      (hfits : ∀ f ∈ fields, ∀ cur, entries.lookup f.1 = some cur → Fits S cur f.2) :
      Fits S (.map entries) (.obj fields)
  | list {items : List Node} {next : List Json}
      (hfits : ∀ p ∈ items.zip next, Fits S p.1 p.2) : Fits S (.list items) (.arr next)
  | scalar {s : Scalar} {v : Json} (hs : scalarToJson s = v → S.scalar s = v) :
      Fits S (.scalar s) v
  | text (content : String) (v : Json) : Fits S (.text content) v
  | mapOther {entries : List (String × Node)} {v : Json} (hv : v.isObject = false) :
      Fits S (.map entries) v
  | listOther {items : List Node} {v : Json} (hv : v.isArray = false) : Fits S (.list items) v

namespace AutoSerde

variable {S : AutoSerde}

theorem jsonEntries_eq (entries : List (String × Node)) :
    S.jsonEntries entries = entries.map fun e => (e.1, S.json e.2) := by
  induction entries with
  | nil => rfl
  | cons e rest ih =>
    rw [jsonEntries, ih]
    rfl

theorem jsonItems_eq (items : List Node) : S.jsonItems items = items.map S.json := by
  induction items with
  | nil => rfl
  | cons node rest ih =>
    rw [jsonItems, ih]
    rfl

theorem lookup_jsonEntries (key : String) (entries : List (String × Node)) :
    (S.jsonEntries entries).lookup key = (entries.lookup key).map S.json := by
  rw [jsonEntries_eq]
  exact Fields.lookup_map S.json key entries

theorem json_numberScalar (m e : Int) : S.json (.scalar (numberScalar m e)) = .num m e := by
  unfold numberScalar
  split
  · next h => rw [json, scalar, h.1]
  · split
    · next h =>
      rw [json, scalar, h.1, Int.toNat_of_nonneg h.2.1]
    · rfl

end AutoSerde

/-! ### What is written is what was wanted -/

/-- A node as Automerge holds it: the keys of its maps ascend. -/
inductive Node.Ordered : Node → Prop
  | map {entries : List (String × Node)} (hkeys : Fields.Ordered entries)
      (hentries : ∀ e ∈ entries, Ordered e.2) : Ordered (.map entries)
  | list {items : List Node} (hitems : ∀ node ∈ items, Ordered node) : Ordered (.list items)
  | text (content : String) : Ordered (.text content)
  | scalar (s : Scalar) : Ordered (.scalar s)

/-- A node that holds no text object, and only scalars that both ways of writing them down write
the same. -/
inductive Node.Plain (S : AutoSerde) : Node → Prop
  | map {entries : List (String × Node)} (hentries : ∀ e ∈ entries, Plain S e.2) :
      Plain S (.map entries)
  | list {items : List Node} (hitems : ∀ node ∈ items, Plain S node) : Plain S (.list items)
  | scalar {s : Scalar} (hs : S.scalar s = scalarToJson s) : Plain S (.scalar s)

namespace AutoSerde

variable {S : AutoSerde}

/-- A value is written as asked, where nothing is and over a plain node. -/
structure Writes (S : AutoSerde) (v : Json) : Prop where
  fresh : ∃ node, putJson v = .ok node ∧ S.json node = v
  rewritten : ∀ cur : Node, cur.Ordered → cur.Plain S →
    ∃ node, reconcileProp (some cur) v = .ok (node, diffChanges (S.json cur) v) ∧ S.json node = v

theorem diffFields_congr {a a' : List (String × Json)} {b : List (String × Json)}
    (h : ∀ f ∈ b, a.lookup f.1 = a'.lookup f.1) : diffFields a b = diffFields a' b := by
  induction b with
  | nil => rfl
  | cons f rest ih =>
    rw [diffFields, diffFields, h f List.mem_cons_self,
      ih fun f hf => h f (List.mem_cons_of_mem _ hf)]

theorem diffItems_take (a b : List Json) : diffItems (a.take b.length) b = diffItems a b := by
  induction b generalizing a with
  | nil => cases a <;> rfl
  | cons v rest ih =>
    cases a with
    | nil => rfl
    | cons prev a => rw [List.length_cons, List.take_succ_cons, diffItems, diffItems, ih]

/-- The wanted keys are written one by one: each then holds what is wanted there, and what is at
the other keys stays. -/
theorem reconcileFields_ok {next : List (String × Json)} (hnext : Fields.Ordered next)
    (hwrites : ∀ f ∈ next, S.Writes f.2) {entries : List (String × Node)}
    (hkeys : Fields.Ordered entries)
    (hplain : ∀ f ∈ next, ∀ cur, entries.lookup f.1 = some cur → cur.Ordered ∧ cur.Plain S) :
    ∃ after, reconcileFields entries next =
        .ok (after, diffFields (S.jsonEntries entries) next) ∧
      Fields.Ordered after ∧
      ∀ k, (S.jsonEntries after).lookup k =
        ((next.lookup k).or ((S.jsonEntries entries).lookup k)) := by
  induction next generalizing entries with
  | nil =>
    exact ⟨entries, by rw [reconcileFields, diffFields], hkeys, fun k => rfl⟩
  | cons f rest ih =>
    obtain ⟨key, v⟩ := f
    obtain ⟨hfirst, hrest⟩ := List.pairwise_cons.1 hnext
    have hne : ∀ f ∈ rest, f.1 ≠ key := fun f hf => (hfirst f hf).ne'
    -- what sits at the key is reconciled
    obtain ⟨node, hprop, hnode⟩ : ∃ node, reconcileProp (entries.lookup key) v =
        .ok (node, match (S.jsonEntries entries).lookup key with
          | none => { added := 1 }
          | some prev => diffChanges prev v) ∧ S.json node = v := by
      have hv := hwrites (key, v) List.mem_cons_self
      rw [lookup_jsonEntries]
      cases hcur : entries.lookup key with
      | none =>
        obtain ⟨node, hput, hnode⟩ := hv.fresh
        refine ⟨node, ?_, hnode⟩
        rw [reconcileProp, hput]
        rfl
      | some cur =>
        obtain ⟨hordered, hplain⟩ := hplain (key, v) List.mem_cons_self cur hcur
        exact hv.rewritten cur hordered hplain
    -- and the keys after it are others
    have hsame : ∀ f ∈ rest, (Fields.put key node entries).lookup f.1 = entries.lookup f.1 :=
      fun f hf => Fields.lookup_put_ne (hne f hf) node entries
    obtain ⟨after, hafter, hordered, hlookup⟩ := ih hrest
      (fun f hf => hwrites f (List.mem_cons_of_mem _ hf)) (hkeys.put key node)
      (fun f hf cur hcur => hplain f (List.mem_cons_of_mem _ hf) cur (hsame f hf ▸ hcur))
    refine ⟨after, ?_, hordered, fun k => ?_⟩
    · rw [reconcileFields, hprop]
      simp only [bind, Except.bind, hafter, pure, Except.pure]
      rw [diffFields, diffFields_congr fun f hf => ?_]
      rw [lookup_jsonEntries, lookup_jsonEntries, hsame f hf]
    · rw [hlookup k, lookup_jsonEntries, lookup_jsonEntries]
      by_cases hk : k = key
      · subst hk
        rw [Fields.lookup_put_self, Fields.lookup_cons_self,
          Fields.lookup_eq_none fun f hf => hne f hf]
        simp [hnode]
      · rw [Fields.lookup_put_ne hk, Fields.lookup_cons_ne hk]

/-- A map is reconciled with what is wanted of it, and every change counted. -/
theorem reconcileMap_ok {next : List (String × Json)} (hnext : Fields.Ordered next)
    (hwrites : ∀ f ∈ next, S.Writes f.2) {entries : List (String × Node)}
    (hkeys : Fields.Ordered entries) (hplain : ∀ e ∈ entries, e.2.Ordered ∧ e.2.Plain S) :
    ∃ after, reconcileMap entries next =
        .ok (after, diffChanges (.obj (S.jsonEntries entries)) (.obj next)) ∧
      S.jsonEntries after = next := by
  have hkept : ∀ k, (entries.filter fun e => (next.lookup e.1).isSome).lookup k =
      if (next.lookup k).isSome then entries.lookup k else none :=
    fun k => Fields.lookup_filter (fun k => (next.lookup k).isSome) k entries
  obtain ⟨after, hafter, hordered, hlookup⟩ := reconcileFields_ok hnext hwrites
    (hkeys.filter fun e => (next.lookup e.1).isSome) fun f hf cur hcur => by
      rw [hkept] at hcur
      split at hcur
      · exact hplain _ (Fields.mem_of_lookup hcur)
      · cases hcur
  refine ⟨after, ?_, ?_⟩
  · unfold reconcileMap trimFields
    simp only [bind, Except.bind, hafter, pure, Except.pure]
    rw [diffChanges]
    have hdiff :
        diffFields (S.jsonEntries (entries.filter fun e => (next.lookup e.1).isSome)) next =
          diffFields (S.jsonEntries entries) next := by
      refine diffFields_congr fun f hf => ?_
      rw [lookup_jsonEntries, lookup_jsonEntries, hkept, hnext.lookup_of_mem hf]
      rfl
    have hremoved : ((S.jsonEntries entries).filter fun f => (next.lookup f.1).isNone).length =
        (entries.filter fun e => (next.lookup e.1).isNone).length := by
      rw [jsonEntries_eq, List.filter_map, List.length_map]
      rfl
    rw [hdiff, hremoved]
    simp only [Changes.merge, Except.ok.injEq, Prod.mk.injEq, Changes.mk.injEq, true_and]
    omega
  · have hafterOrdered : Fields.Ordered (S.jsonEntries after) := by
      rw [jsonEntries_eq]
      exact hordered.map S.json
    refine hafterOrdered.ext hnext fun k => ?_
    rw [hlookup, lookup_jsonEntries, hkept]
    cases next.lookup k <;> rfl

/-- The wanted items are written one by one, over those that were there and then at the end. -/
theorem reconcileItems_ok {next : List Json} (hwrites : ∀ v ∈ next, S.Writes v)
    (done cur : List Node) {len : Nat} (hplain : ∀ node ∈ cur, node.Ordered ∧ node.Plain S)
    (hlen : cur.length = len - done.length) (hnext : cur.length ≤ next.length) :
    ∃ after, reconcileItems (done ++ cur) done.length len next =
        .ok (done ++ after, (diffItems (S.jsonItems cur) next).merge
          { added := next.length - cur.length }) ∧
      S.jsonItems after = next := by
  induction next generalizing done cur with
  | nil =>
    obtain rfl : cur = [] := List.length_eq_zero_iff.1 (Nat.le_zero.1 hnext)
    exact ⟨[], by rw [reconcileItems]; rfl, rfl⟩
  | cons v rest ih =>
    have hrest : ∀ v ∈ rest, S.Writes v := fun v hv => hwrites v (List.mem_cons_of_mem _ hv)
    have hv := hwrites v List.mem_cons_self
    have hdone : ∀ node : Node, (done ++ [node]).length = done.length + 1 := by simp
    cases cur with
    | nil =>
      rw [List.length_nil] at hlen
      obtain ⟨node, hput, hnode⟩ := hv.fresh
      obtain ⟨after, hafter, hitems⟩ := ih hrest (done ++ [node]) []
        (by simp) (by rw [hdone, List.length_nil]; omega) (Nat.zero_le _)
      refine ⟨node :: after, ?_, by rw [jsonItems, hnode, hitems]⟩
      rw [hdone] at hafter
      rw [List.append_nil] at hafter
      rw [reconcileItems, if_neg (by omega), List.append_nil]
      simp only [bind, Except.bind, hput, insertAt_end, hafter, pure, Except.pure]
      simp only [jsonItems, diffItems, Changes.merge, List.length_cons, List.length_nil,
        List.append_assoc, List.singleton_append, Except.ok.injEq, Prod.mk.injEq,
        Changes.mk.injEq, true_and, and_true]
      omega
    | cons c cur =>
      rw [List.length_cons] at hlen hnext
      obtain ⟨hordered, hc⟩ := hplain c List.mem_cons_self
      obtain ⟨node, hprop, hnode⟩ := hv.rewritten c hordered hc
      obtain ⟨after, hafter, hitems⟩ := ih hrest (done ++ [node]) cur
        (fun node hmem => hplain node (List.mem_cons_of_mem _ hmem)) (by rw [hdone]; omega)
        (by simpa using hnext)
      refine ⟨node :: after, ?_, by rw [jsonItems, hnode, hitems]⟩
      rw [hdone] at hafter
      have hget : (done ++ c :: cur)[done.length]? = some c := by simp
      rw [reconcileItems, if_pos (by omega), hget]
      simp only [bind, Except.bind, hprop, putAt_append, hafter, pure, Except.pure]
      simp only [jsonItems, diffItems, Changes.merge, List.length_cons,
        List.append_assoc, List.singleton_append, Except.ok.injEq, Prod.mk.injEq,
        Changes.mk.injEq, true_and]
      omega

/-- A list is reconciled with what is wanted of it, and every change counted. -/
theorem reconcileList_ok {next : List Json} (hwrites : ∀ v ∈ next, S.Writes v) {items : List Node}
    (hplain : ∀ node ∈ items, node.Ordered ∧ node.Plain S) :
    ∃ after, reconcileList items next =
        .ok (after, diffChanges (.arr (S.jsonItems items)) (.arr next)) ∧
      S.jsonItems after = next := by
  have hkept : (items.take next.length).length ≤ next.length := List.length_take_le _ _
  obtain ⟨after, hafter, hitems⟩ := reconcileItems_ok hwrites [] (items.take next.length)
    (fun node hmem => hplain node (List.mem_of_mem_take hmem))
    (rfl : _ = (items.take next.length).length - ([] : List Node).length) hkept
  refine ⟨after, ?_, hitems⟩
  rw [List.nil_append, List.nil_append] at hafter
  unfold reconcileList
  simp only [trimItems_eq, bind, Except.bind, pure, Except.pure]
  rw [List.length_nil] at hafter
  rw [hafter]
  have hdiff : diffItems (S.jsonItems (items.take next.length)) next =
      diffItems (S.jsonItems items) next := by
    rw [jsonItems_eq, jsonItems_eq, List.map_take]
    exact diffItems_take _ _
  rw [hdiff, diffChanges]
  simp only [Changes.merge, Except.ok.injEq, Prod.mk.injEq, Changes.mk.injEq, true_and,
    jsonItems_eq, List.length_map, List.length_take]
  omega

/-- The items of a fresh list are written one by one. -/
theorem insertItems_ok {next : List Json} (hwrites : ∀ v ∈ next, S.Writes v) (done : List Node) :
    ∃ after, insertItems done done.length next = .ok (done ++ after) ∧
      S.jsonItems after = next := by
  induction next generalizing done with
  | nil => exact ⟨[], by rw [insertItems, List.append_nil], rfl⟩
  | cons v rest ih =>
    obtain ⟨node, hput, hnode⟩ := (hwrites v List.mem_cons_self).fresh
    obtain ⟨after, hafter, hitems⟩ :=
      ih (fun v hv => hwrites v (List.mem_cons_of_mem _ hv)) (done ++ [node])
    rw [List.length_append, List.length_singleton, List.append_assoc] at hafter
    refine ⟨node :: after, ?_, by rw [jsonItems, hnode, hitems]⟩
    rw [insertItems]
    simp only [bind, Except.bind, hput, insertAt_end, hafter]
    rfl

/-- What is written for a value projects to it. -/
theorem putJson_ok {v : Json} (hv : v.Ordered)
    (harr : ∀ items, v = .arr items → ∀ w ∈ items, S.Writes w)
    (hobj : ∀ fields, v = .obj fields → ∀ f ∈ fields, S.Writes f.2) :
    ∃ node, putJson v = .ok node ∧ S.json node = v := by
  cases hv with
  | null => exact ⟨_, by rw [putJson], rfl⟩
  | bool b => exact ⟨_, by rw [putJson], rfl⟩
  | num m e => exact ⟨_, by rw [putJson], json_numberScalar m e⟩
  | str s => exact ⟨_, by rw [putJson], rfl⟩
  | @arr items =>
    obtain ⟨after, hafter, hitems⟩ := insertItems_ok (harr _ rfl) []
    rw [List.length_nil, List.nil_append] at hafter
    refine ⟨.list after, ?_, by rw [json, hitems]⟩
    rw [putJson]
    simp only [bind, Except.bind, hafter, pure, Except.pure]
  | @obj fields hkeys =>
    obtain ⟨after, hafter, hfields⟩ := reconcileMap_ok hkeys (hobj _ rfl)
      (List.Pairwise.nil : Fields.Ordered ([] : List (String × Node))) (by simp)
    refine ⟨.map after, ?_, by rw [json, hfields]⟩
    rw [putJson]
    simp only [bind, Except.bind, hafter, pure, Except.pure]

/-- Whatever is wanted is written over a plain node, once it can be written where nothing is. -/
theorem over_ok {v : Json} (hfresh : ∃ node, putJson v = .ok node ∧ S.json node = v)
    (harr : ∀ items, v = .arr items → ∀ w ∈ items, S.Writes w)
    (hobj : ∀ fields, v = .obj fields → Fields.Ordered fields ∧ ∀ f ∈ fields, S.Writes f.2)
    {cur : Node} (hcur : cur.Ordered) (hplain : cur.Plain S) :
    ∃ node, reconcileProp (some cur) v = .ok (node, diffChanges (S.json cur) v) ∧
      S.json node = v := by
  obtain ⟨node, hput, hnode⟩ := hfresh
  -- where the shape changes it is written anew
  have hanew : reconcileProp (some cur) v = (do return (← putJson v, { changed := 1 })) →
      diffChanges (S.json cur) v = { changed := 1 } →
        ∃ node, reconcileProp (some cur) v = .ok (node, diffChanges (S.json cur) v) ∧
          S.json node = v := by
    intro hprop hdiff
    refine ⟨node, ?_, hnode⟩
    rw [hprop, hdiff]
    simp only [bind, Except.bind, hput, pure, Except.pure]
  cases hplain with
  | @map entries hentries =>
    cases hcur with
    | map hkeys hordered =>
      cases v with
      | obj fields =>
        obtain ⟨hnext, hwrites⟩ := hobj fields rfl
        obtain ⟨after, hafter, hfields⟩ := reconcileMap_ok hnext hwrites hkeys
          fun e he => ⟨hordered e he, hentries e he⟩
        refine ⟨.map after, ?_, by rw [json, hfields]⟩
        rw [reconcileProp.eq_def, json]
        simp only [bind, Except.bind, hafter, pure, Except.pure]
      | _ =>
        exact hanew (by rw [reconcileProp.eq_def])
          (diffChanges_leaf (.inr rfl) (by simp [json, Json.isArray]))
  | @list items hitems =>
    cases hcur with
    | list hordered =>
      cases v with
      | arr next =>
        obtain ⟨after, hafter, hnext⟩ := reconcileList_ok (harr next rfl)
          fun node hmem => ⟨hordered node hmem, hitems node hmem⟩
        refine ⟨.list after, ?_, by rw [json, hnext]⟩
        rw [reconcileProp.eq_def, json]
        simp only [bind, Except.bind, hafter, pure, Except.pure]
      | _ =>
        exact hanew (by rw [reconcileProp.eq_def])
          (diffChanges_leaf (by simp [json, Json.isObject]) (.inr rfl))
  | @scalar s hs =>
    obtain ⟨hobject, harray⟩ := scalarToJson_leaf s
    have hdiff : diffChanges (S.json (.scalar s)) v =
        if (scalarToJson s).sameLeaf v then {} else { changed := 1 } := by
      rw [json, hs]
      exact diffChanges_leaf (.inl hobject) (.inl harray)
    by_cases hsame : (scalarToJson s).sameLeaf v = true
    · have heq := Json.sameLeaf_eq hsame
      rw [if_pos hsame] at hdiff
      refine ⟨.scalar s, ?_, by rw [json, hs, heq]⟩
      rw [hdiff, reconcileProp.eq_def]
      rw [heq] at hobject harray hsame
      simp [heq, hobject, harray, hsame]
    · rw [if_neg hsame] at hdiff
      refine hanew ?_ hdiff
      rw [reconcileProp.eq_def]
      simp [hsame]

theorem writes_of_parts {v : Json} (hv : v.Ordered)
    (harr : ∀ items, v = .arr items → ∀ w ∈ items, S.Writes w)
    (hobj : ∀ fields, v = .obj fields → Fields.Ordered fields ∧ ∀ f ∈ fields, S.Writes f.2) :
    S.Writes v := by
  have hfresh := putJson_ok hv harr fun fields h => (hobj fields h).2
  exact ⟨hfresh, fun cur hcur hplain => over_ok hfresh harr hobj hcur hplain⟩

/-- **Every value is written as asked**, by induction on the value. -/
theorem writes {v : Json} (hv : v.Ordered) : S.Writes v := by
  induction hv with
  | arr hitems ih =>
    refine writes_of_parts (.arr hitems) (fun items h => ?_) fun _ h => nomatch h
    cases h
    exact ih
  | obj hkeys hfields ih =>
    refine writes_of_parts (.obj hkeys hfields) (fun _ h => nomatch h) fun fields h => ?_
    cases h
    exact ⟨hkeys, ih⟩
  | null => exact writes_of_parts .null (fun _ h => nomatch h) fun _ h => nomatch h
  | bool b => exact writes_of_parts (.bool b) (fun _ h => nomatch h) fun _ h => nomatch h
  | num m e => exact writes_of_parts (.num m e) (fun _ h => nomatch h) fun _ h => nomatch h
  | str s => exact writes_of_parts (.str s) (fun _ h => nomatch h) fun _ h => nomatch h

/-! ### A document's own projection -/

/-- A plain node's own projection changes nothing of it. -/
theorem own_map {entries : List (String × Node)} (hkeys : Fields.Ordered entries)
    (hown : ∀ e ∈ entries, reconcileProp (some e.2) (S.json e.2) = .ok (e.2, {})) :
    reconcileMap entries (S.jsonEntries entries) = .ok (entries, {}) := by
  have hall : ∀ e ∈ entries, ((S.jsonEntries entries).lookup e.1).isSome = true := by
    intro e he
    rw [lookup_jsonEntries, hkeys.lookup_of_mem he]
    rfl
  have hloop : ∀ rest : List (String × Node), (∀ e ∈ rest, e ∈ entries) →
      reconcileFields entries (S.jsonEntries rest) = .ok (entries, {}) := by
    intro rest hrest
    induction rest with
    | nil => rw [jsonEntries, reconcileFields]
    | cons e rest ih =>
      have hmem := hrest e List.mem_cons_self
      have hlookup := hkeys.lookup_of_mem hmem
      rw [jsonEntries, reconcileFields, hlookup]
      simp only [bind, Except.bind, hown e hmem, hkeys.put_self hlookup,
        ih fun e he => hrest e (List.mem_cons_of_mem _ he), pure, Except.pure]
      rfl
  unfold reconcileMap trimFields
  rw [List.filter_eq_self.2 hall]
  simp only [bind, Except.bind, hloop entries fun e he => he, pure, Except.pure]
  rw [List.filter_eq_nil_iff.2 fun e he => by simp [Option.isSome_iff_ne_none.1 (hall e he)]]
  rfl

theorem own_list {items : List Node}
    (hown : ∀ node ∈ items, reconcileProp (some node) (S.json node) = .ok (node, {})) :
    reconcileList items (S.jsonItems items) = .ok (items, {}) := by
  have hlength : (S.jsonItems items).length = items.length := by
    rw [jsonItems_eq, List.length_map]
  have hloop : ∀ done rest : List Node, (∀ node ∈ rest, node ∈ items) →
      reconcileItems (done ++ rest) done.length (done.length + rest.length) (S.jsonItems rest) =
        .ok (done ++ rest, {}) := by
    intro done rest hrest
    induction rest generalizing done with
    | nil => rw [jsonItems, reconcileItems]
    | cons node rest ih =>
      have hget : (done ++ node :: rest)[done.length]? = some node := by simp
      have hnext := ih (done ++ [node]) fun node hmem => hrest node (List.mem_cons_of_mem _ hmem)
      rw [List.length_append, List.length_singleton] at hnext
      rw [jsonItems, reconcileItems, if_pos (by simp), hget]
      simp only [bind, Except.bind, hown node (hrest node List.mem_cons_self), putAt_append,
        List.length_cons, pure, Except.pure]
      rw [← Nat.add_assoc, Nat.add_right_comm, hnext]
      simp
  unfold reconcileList
  have hitems := hloop [] items fun node hmem => hmem
  simp only [trimItems_eq, bind, Except.bind, hlength, List.take_length, pure, Except.pure]
  rw [List.length_nil, Nat.zero_add, List.nil_append] at hitems
  rw [hitems]
  simp [Changes.merge]

theorem own_prop {cur : Node} (hplain : cur.Plain S) (hcur : cur.Ordered) :
    reconcileProp (some cur) (S.json cur) = .ok (cur, {}) := by
  induction hplain with
  | @map entries hentries ih =>
    cases hcur with
    | map hkeys hordered =>
      rw [reconcileProp.eq_def, json]
      simp only [bind, Except.bind, own_map hkeys fun e he => ih e he (hordered e he), pure,
        Except.pure]
  | @list items hitems ih =>
    cases hcur with
    | list hordered =>
      rw [reconcileProp.eq_def, json]
      simp only [bind, Except.bind, own_list fun node hmem => ih node hmem (hordered node hmem),
        pure, Except.pure]
  | @scalar s hs =>
    obtain ⟨hobject, harray⟩ := scalarToJson_leaf s
    rw [reconcileProp.eq_def, json, hs]
    simp [hobject, harray, Json.sameLeaf_self hobject harray]

/-- Where no change is counted in a map, none is at any of its keys. -/
theorem none_fields {next : List (String × Json)} (hnext : Fields.Ordered next)
    {entries after : List (String × Node)} (h : reconcileFields entries next = .ok (after, {})) :
    ∀ f ∈ next, ∃ node, reconcileProp (entries.lookup f.1) f.2 = .ok (node, {}) := by
  induction next generalizing entries after with
  | nil => simp
  | cons first rest ih =>
    obtain ⟨key, v⟩ := first
    obtain ⟨hfirst, hrest⟩ := List.pairwise_cons.1 hnext
    rw [reconcileFields] at h
    simp only [bind, Except.bind] at h
    split at h
    · cases h
    · next x hprop =>
      obtain ⟨node, changes⟩ := x
      dsimp only at h
      split at h
      · cases h
      · next x hloop =>
        obtain ⟨last, more⟩ := x
        simp only [pure, Except.pure, Except.ok.injEq, Prod.mk.injEq] at h
        obtain ⟨rfl, rfl⟩ := Changes.merge_eq_none h.2
        intro f hf
        rcases List.mem_cons.1 hf with rfl | hf
        · exact ⟨node, hprop⟩
        · have := ih hrest hloop f hf
          rwa [Fields.lookup_put_ne (hfirst f hf).ne'] at this

theorem none_map {entries after : List (String × Node)} (hkeys : Fields.Ordered entries)
    (h : reconcileMap entries (S.jsonEntries entries) = .ok (after, {})) :
    ∀ e ∈ entries, ∃ node, reconcileProp (some e.2) (S.json e.2) = .ok (node, {}) := by
  have hnext : Fields.Ordered (S.jsonEntries entries) := by
    rw [jsonEntries_eq]
    exact hkeys.map S.json
  have hall : ∀ e ∈ entries, ((S.jsonEntries entries).lookup e.1).isSome = true := by
    intro e he
    rw [lookup_jsonEntries, hkeys.lookup_of_mem he]
    rfl
  unfold reconcileMap trimFields at h
  rw [List.filter_eq_self.2 hall] at h
  simp only [bind, Except.bind] at h
  split at h
  · cases h
  · next x hloop =>
    obtain ⟨last, changes⟩ := x
    simp only [pure, Except.pure, Except.ok.injEq, Prod.mk.injEq] at h
    obtain ⟨-, rfl⟩ := Changes.merge_eq_none h.2
    intro e he
    have hmem : (e.1, S.json e.2) ∈ S.jsonEntries entries := by
      rw [jsonEntries_eq]
      exact List.mem_map_of_mem he
    have := none_fields hnext hloop _ hmem
    rwa [hkeys.lookup_of_mem he] at this

/-- Where no change is counted in a list, none is at any of its items. -/
theorem none_items {done cur after : List Node}
    (h : reconcileItems (done ++ cur) done.length (done.length + cur.length) (S.jsonItems cur) =
      .ok (after, {})) :
    ∀ node ∈ cur, ∃ x, reconcileProp (some node) (S.json node) = .ok (x, {}) := by
  induction cur generalizing done after with
  | nil => simp
  | cons c rest ih =>
    have hget : (done ++ c :: rest)[done.length]? = some c := by simp
    rw [jsonItems, reconcileItems, if_pos (by simp), hget] at h
    simp only [bind, Except.bind] at h
    split at h
    · cases h
    · next x hprop =>
      obtain ⟨node, changes⟩ := x
      dsimp only at h
      rw [putAt_append] at h
      dsimp only at h
      split at h
      · cases h
      · next x hloop =>
        obtain ⟨last, more⟩ := x
        simp only [pure, Except.pure, Except.ok.injEq, Prod.mk.injEq] at h
        obtain ⟨rfl, rfl⟩ := Changes.merge_eq_none h.2
        have hlen : done.length + (c :: rest).length = (done ++ [node]).length + rest.length := by
          simp only [List.length_append, List.length_cons, List.length_nil]
          omega
        rw [hlen] at hloop
        have hdone : done.length + 1 = (done ++ [node]).length := by simp
        rw [hdone] at hloop
        intro n hn
        rcases List.mem_cons.1 hn with rfl | hn
        · exact ⟨node, hprop⟩
        · exact ih hloop n hn

theorem none_list {items after : List Node}
    (h : reconcileList items (S.jsonItems items) = .ok (after, {})) :
    ∀ node ∈ items, ∃ x, reconcileProp (some node) (S.json node) = .ok (x, {}) := by
  have hlength : (S.jsonItems items).length = items.length := by
    rw [jsonItems_eq, List.length_map]
  unfold reconcileList at h
  simp only [trimItems_eq, bind, Except.bind, hlength, List.take_length] at h
  split at h
  · cases h
  · next x hloop =>
    obtain ⟨last, changes⟩ := x
    simp only [pure, Except.pure, Except.ok.injEq, Prod.mk.injEq] at h
    obtain ⟨-, rfl⟩ := Changes.merge_eq_none h.2
    have hitems : reconcileItems ([] ++ items) ([] : List Node).length
        (([] : List Node).length + items.length) (S.jsonItems items) = .ok (last, {}) := by
      simpa using hloop
    exact none_items hitems

/-- A node whose own projection counts as no change is plain. -/
theorem plain_of_own {cur node : Node} (hcur : cur.Ordered)
    (h : reconcileProp (some cur) (S.json cur) = .ok (node, {})) : cur.Plain S := by
  induction hcur generalizing node with
  | @map entries hkeys hentries ih =>
    rw [reconcileProp.eq_def, json] at h
    simp only [bind, Except.bind] at h
    split at h
    · cases h
    · next x hmap =>
      obtain ⟨after, changes⟩ := x
      simp only [pure, Except.pure, Except.ok.injEq, Prod.mk.injEq] at h
      rw [h.2] at hmap
      refine .map fun e he => ?_
      obtain ⟨x, hx⟩ := none_map hkeys hmap e he
      exact ih e he hx
  | @list items hitems ih =>
    rw [reconcileProp.eq_def, json] at h
    simp only [bind, Except.bind] at h
    split at h
    · cases h
    · next x hlist =>
      obtain ⟨after, changes⟩ := x
      simp only [pure, Except.pure, Except.ok.injEq, Prod.mk.injEq] at h
      rw [h.2] at hlist
      refine .list fun n hn => ?_
      obtain ⟨x, hx⟩ := none_list hlist n hn
      exact ih n hn hx
  | text content =>
    rw [reconcileProp.eq_def] at h
    simp only [bind, Except.bind] at h
    -- a text object is always written over
    split at h
    · cases h
    · cases h
  | scalar s =>
    rw [reconcileProp.eq_def, json] at h
    dsimp only at h
    split at h
    · next hsame =>
      simp only [Bool.and_eq_true] at hsame
      exact .scalar (Json.sameLeaf_eq hsame.2).symm
    · simp only [bind, Except.bind] at h
      split at h
      · cases h
      · cases h

/-- What is asked of reconciliation at a document: any object is written, every change counted as
the diff counts it, and the document's own projection changes nothing. -/
structure Reconciles (S : AutoSerde) (root : List (String × Node)) : Prop where
  writes : ∀ next, (Json.obj next).Ordered →
    ∃ after, AutoCommit.applyJson root (.obj next) =
        .ok (after, diffChanges (S.json (.map root)) (.obj next)) ∧
      S.json (.map after) = .obj next
  own : AutoCommit.applyJson root (S.json (.map root)) = .ok (root, {})

/-- **Reconciliation does what is asked of it at exactly the documents** that hold no text object
and no scalar that is read back otherwise than it is projected. -/
theorem reconciles_iff {root : List (String × Node)} (hroot : (Node.map root).Ordered) :
    S.Reconciles root ↔ (Node.map root).Plain S := by
  have hown : S.json (.map root) = .obj (S.jsonEntries root) := by rw [json]
  cases hroot with
  | map hkeys hordered =>
  constructor
  · rintro ⟨-, h⟩
    rw [hown, AutoCommit.applyJson] at h
    refine .map fun e he => ?_
    obtain ⟨x, hx⟩ := none_map hkeys h e he
    exact plain_of_own (hordered e he) hx
  · rintro (⟨hplain⟩ | _ | _)
    refine ⟨fun next hnext => ?_, ?_⟩
    · cases hnext with
      | obj hnext hfields =>
        obtain ⟨after, hafter, hjson⟩ := reconcileMap_ok hnext (fun f hf => S.writes (hfields f hf))
          hkeys fun e he => ⟨hordered e he, hplain e he⟩
        exact ⟨after, by rw [AutoCommit.applyJson, hafter, hown], by rw [json, hjson]⟩
    · rw [hown, AutoCommit.applyJson]
      exact own_map hkeys fun e he => own_prop (hplain e he) (hordered e he)

/-! ### Over any document -/

/-- A node is as ordered as what it projects to. -/
theorem ordered_of_json {v : Json} (hv : v.Ordered) :
    ∀ node : Node, S.json node = v → node.Ordered := by
  induction hv with
  | @obj fields hkeys hfields ih =>
    intro node hnode
    cases node with
    | map entries =>
      rw [json, jsonEntries_eq, Json.obj.injEq] at hnode
      subst hnode
      refine .map ?_ fun e he => ih _ (List.mem_map_of_mem he) e.2 rfl
      unfold Fields.Ordered at hkeys ⊢
      rw [List.pairwise_map] at hkeys
      exact hkeys
    | list items =>
      rw [json] at hnode
      cases hnode
    | text content => exact .text content
    | scalar s => exact .scalar s
  | @arr items hitems ih =>
    intro node hnode
    cases node with
    | map entries =>
      rw [json] at hnode
      cases hnode
    | list nodes =>
      rw [json, jsonItems_eq, Json.arr.injEq] at hnode
      subst hnode
      exact .list fun n hn => ih _ (List.mem_map_of_mem hn) n rfl
    | text content => exact .text content
    | scalar s => exact .scalar s
  | null | bool | num | str =>
    intro node hnode
    cases node with
    | map entries =>
      rw [json] at hnode
      cases hnode
    | list nodes =>
      rw [json] at hnode
      cases hnode
    | text content => exact .text content
    | scalar s => exact .scalar s

/-- What is written where nothing was. -/
theorem putJson_ordered {v : Json} (hv : v.Ordered) :
    ∃ node, putJson v = .ok node ∧ node.Ordered ∧ S.json node = v := by
  obtain ⟨node, hput, hnode⟩ := (S.writes hv).fresh
  exact ⟨node, hput, ordered_of_json hv node hnode, hnode⟩

/-- What writing a value over a node does: it succeeds; it counts no change only where it makes
none; and the value is what the node then projects to, where it fits. -/
def Over (S : AutoSerde) (v : Json) : Prop :=
  ∀ cur : Node, cur.Ordered → ∃ node changes, reconcileProp (some cur) v = .ok (node, changes) ∧
    node.Ordered ∧ (changes = {} → node = cur) ∧ (cur.Fits S v → S.json node = v)

theorem reconcileFields_over {next : List (String × Json)} (hnext : Fields.Ordered next)
    (hvalues : ∀ f ∈ next, f.2.Ordered) (hover : ∀ f ∈ next, S.Over f.2)
    {entries : List (String × Node)} (hkeys : Fields.Ordered entries)
    (hentries : ∀ e ∈ entries, e.2.Ordered) :
    ∃ after changes, reconcileFields entries next = .ok (after, changes) ∧
      Fields.Ordered after ∧ (∀ e ∈ after, e.2.Ordered) ∧ (changes = {} → after = entries) ∧
      ((∀ f ∈ next, ∀ cur, entries.lookup f.1 = some cur → cur.Fits S f.2) →
        ∀ k, (S.jsonEntries after).lookup k =
          (next.lookup k).or ((S.jsonEntries entries).lookup k)) := by
  induction next generalizing entries with
  | nil => exact ⟨entries, {}, by rw [reconcileFields], hkeys, hentries, fun _ => rfl, fun _ _ => rfl⟩
  | cons f rest ih =>
    obtain ⟨key, v⟩ := f
    obtain ⟨hfirst, hrest⟩ := List.pairwise_cons.1 hnext
    have hne : ∀ f ∈ rest, f.1 ≠ key := fun f hf => (hfirst f hf).ne'
    -- what sits at the key is reconciled
    obtain ⟨node, changes, hprop, hordered, hnone, hfits⟩ : ∃ node changes,
        reconcileProp (entries.lookup key) v = .ok (node, changes) ∧ node.Ordered ∧
          (changes = {} → entries.lookup key = some node) ∧
          ((∀ cur, entries.lookup key = some cur → cur.Fits S v) → S.json node = v) := by
      cases hcur : entries.lookup key with
      | none =>
        obtain ⟨node, hput, hordered, hnode⟩ :=
          putJson_ordered (S := S) (hvalues (key, v) List.mem_cons_self)
        refine ⟨node, { added := 1 }, ?_, hordered, fun h => (by cases h), fun _ => hnode⟩
        rw [reconcileProp, hput]
        rfl
      | some cur =>
        obtain ⟨node, changes, hprop, hordered, hnone, hfits⟩ :=
          hover (key, v) List.mem_cons_self cur (hentries _ (Fields.mem_of_lookup hcur))
        exact ⟨node, changes, hprop, hordered, fun h => (by rw [hnone h]), fun h => hfits (h cur rfl)⟩
    -- and the keys after it are others
    have hsame : ∀ f ∈ rest, (Fields.put key node entries).lookup f.1 = entries.lookup f.1 :=
      fun f hf => Fields.lookup_put_ne (hne f hf) node entries
    have hput : ∀ e ∈ Fields.put key node entries, e.2.Ordered := by
      intro e he
      obtain rfl | he := Fields.mem_put he
      · exact hordered
      · exact hentries e he
    obtain ⟨after, more, hafter, hkeys', hentries', hnone', hlookup⟩ := ih hrest
      (fun f hf => hvalues f (List.mem_cons_of_mem _ hf))
      (fun f hf => hover f (List.mem_cons_of_mem _ hf)) (hkeys.put key node) hput
    refine ⟨after, changes.merge more, ?_, hkeys', hentries', fun h => ?_, fun h k => ?_⟩
    · rw [reconcileFields, hprop]
      simp only [bind, Except.bind, hafter, pure, Except.pure]
    · obtain ⟨rfl, rfl⟩ := Changes.merge_eq_none h
      rw [hnone' rfl, hkeys.put_self (hnone rfl)]
    · have hnode := hfits (h (key, v) List.mem_cons_self)
      rw [hlookup (fun f hf cur hcur =>
        h f (List.mem_cons_of_mem _ hf) cur (hsame f hf ▸ hcur)) k, lookup_jsonEntries,
        lookup_jsonEntries]
      by_cases hk : k = key
      · subst hk
        rw [Fields.lookup_put_self, Fields.lookup_cons_self,
          Fields.lookup_eq_none fun f hf => hne f hf]
        simp [hnode]
      · rw [Fields.lookup_put_ne hk, Fields.lookup_cons_ne hk]

theorem reconcileMap_over {next : List (String × Json)} (hnext : Fields.Ordered next)
    (hvalues : ∀ f ∈ next, f.2.Ordered) (hover : ∀ f ∈ next, S.Over f.2)
    {entries : List (String × Node)} (hentries : (Node.map entries).Ordered) :
    ∃ after changes, reconcileMap entries next = .ok (after, changes) ∧
      (Node.map after).Ordered ∧ (changes = {} → after = entries) ∧
      ((Node.map entries).Fits S (.obj next) → S.jsonEntries after = next) := by
  cases hentries with
  | map hkeys hordered =>
  have hkept : ∀ k, (entries.filter fun e => (next.lookup e.1).isSome).lookup k =
      if (next.lookup k).isSome then entries.lookup k else none :=
    fun k => Fields.lookup_filter (fun k => (next.lookup k).isSome) k entries
  obtain ⟨after, changes, hafter, hkeys', hordered', hnone, hlookup⟩ := reconcileFields_over hnext
    hvalues hover (hkeys.filter fun e => (next.lookup e.1).isSome)
    fun e he => hordered e (List.mem_of_mem_filter he)
  refine ⟨after, Changes.merge
    { removed := (entries.filter fun e => (next.lookup e.1).isNone).length } changes, ?_,
    .map hkeys' hordered', fun h => ?_, fun h => ?_⟩
  · unfold reconcileMap trimFields
    simp only [bind, Except.bind, hafter, pure, Except.pure]
  · obtain ⟨hremoved, rfl⟩ := Changes.merge_eq_none h
    rw [hnone rfl]
    refine List.filter_eq_self.2 fun e he => ?_
    have hempty : (entries.filter fun e => (next.lookup e.1).isNone) = [] := by
      have := congrArg Changes.removed hremoved
      exact List.length_eq_zero_iff.1 this
    have := List.filter_eq_nil_iff.1 hempty e he
    simpa using this
  · have hafterOrdered : Fields.Ordered (S.jsonEntries after) := by
      rw [jsonEntries_eq]
      exact hkeys'.map S.json
    refine hafterOrdered.ext hnext fun k => ?_
    have hfits : ∀ f ∈ next, ∀ cur,
        (entries.filter fun e => (next.lookup e.1).isSome).lookup f.1 = some cur →
          cur.Fits S f.2 := by
      intro f hf cur hcur
      rw [hkept] at hcur
      cases h with
      | map hfits =>
        split at hcur
        · exact hfits f hf cur hcur
        · cases hcur
      | mapOther hv => cases hv
    rw [hlookup hfits, lookup_jsonEntries, hkept]
    cases next.lookup k <;> rfl

theorem reconcileItems_over {next : List Json} (hvalues : ∀ v ∈ next, v.Ordered)
    (hover : ∀ v ∈ next, S.Over v) (done cur : List Node) {len : Nat}
    (hcur : ∀ node ∈ cur, node.Ordered) (hlen : cur.length = len - done.length)
    (hnext : cur.length ≤ next.length) :
    ∃ after changes, reconcileItems (done ++ cur) done.length len next =
        .ok (done ++ after, changes) ∧ (∀ node ∈ after, node.Ordered) ∧
      (changes = {} → after = cur) ∧
      ((∀ p ∈ cur.zip next, p.1.Fits S p.2) → S.jsonItems after = next) := by
  induction next generalizing done cur with
  | nil =>
    obtain rfl : cur = [] := List.length_eq_zero_iff.1 (Nat.le_zero.1 hnext)
    exact ⟨[], {}, by rw [reconcileItems], nofun, fun _ => rfl, fun _ => rfl⟩
  | cons v rest ih =>
    have hdone : ∀ node : Node, (done ++ [node]).length = done.length + 1 := by simp
    have hvalues' : ∀ v ∈ rest, v.Ordered := fun v hv => hvalues v (List.mem_cons_of_mem _ hv)
    have hover' : ∀ v ∈ rest, S.Over v := fun v hv => hover v (List.mem_cons_of_mem _ hv)
    cases cur with
    | nil =>
      rw [List.length_nil] at hlen
      obtain ⟨node, hput, hordered, hnode⟩ := putJson_ordered (S := S) (hvalues v List.mem_cons_self)
      obtain ⟨after, more, hafter, hitems, -, hjson⟩ := ih hvalues' hover' (done ++ [node]) []
        nofun (by rw [hdone, List.length_nil]; omega) (Nat.zero_le _)
      rw [hdone, List.append_nil] at hafter
      refine ⟨node :: after, Changes.merge { added := 1 } more, ?_, ?_, fun h => ?_, fun _ => ?_⟩
      · rw [reconcileItems, if_neg (by omega), List.append_nil]
        simp only [bind, Except.bind, hput, insertAt_end, hafter, pure, Except.pure,
          List.append_assoc, List.singleton_append]
      · exact List.forall_mem_cons.2 ⟨hordered, hitems⟩
      · cases (Changes.merge_eq_none h).1
      · rw [jsonItems, hnode, hjson nofun]
    | cons c cur =>
      rw [List.length_cons] at hlen hnext
      obtain ⟨node, changes, hprop, hordered, hnone, hfits⟩ :=
        hover v List.mem_cons_self c (hcur c List.mem_cons_self)
      obtain ⟨after, more, hafter, hitems, hnone', hjson⟩ := ih hvalues' hover' (done ++ [node]) cur
        (fun n hn => hcur n (List.mem_cons_of_mem _ hn)) (by rw [hdone]; omega)
        (by simpa using hnext)
      rw [hdone] at hafter
      have hget : (done ++ c :: cur)[done.length]? = some c := by simp
      refine ⟨node :: after, changes.merge more, ?_, ?_, fun h => ?_, fun h => ?_⟩
      · rw [reconcileItems, if_pos (by omega), hget]
        simp only [bind, Except.bind, hprop, putAt_append, hafter, pure, Except.pure]
        rw [List.append_assoc, List.singleton_append]
      · exact List.forall_mem_cons.2 ⟨hordered, hitems⟩
      · obtain ⟨rfl, rfl⟩ := Changes.merge_eq_none h
        rw [hnone rfl, hnone' rfl]
      · rw [List.zip_cons_cons, List.forall_mem_cons] at h
        rw [jsonItems, hfits h.1, hjson h.2]

theorem reconcileList_over {next : List Json} (hvalues : ∀ v ∈ next, v.Ordered)
    (hover : ∀ v ∈ next, S.Over v) {items : List Node} (hitems : ∀ node ∈ items, node.Ordered) :
    ∃ after changes, reconcileList items next = .ok (after, changes) ∧
      (∀ node ∈ after, node.Ordered) ∧ (changes = {} → after = items) ∧
      ((Node.list items).Fits S (.arr next) → S.jsonItems after = next) := by
  have hkept : (items.take next.length).length ≤ next.length := List.length_take_le _ _
  obtain ⟨after, changes, hafter, hordered, hnone, hjson⟩ := reconcileItems_over hvalues hover []
    (items.take next.length) (fun node hmem => hitems node (List.mem_of_mem_take hmem))
    (rfl : _ = (items.take next.length).length - ([] : List Node).length) hkept
  rw [List.nil_append, List.nil_append, List.length_nil] at hafter
  refine ⟨after, Changes.merge { removed := items.length - next.length } changes, ?_, hordered,
    fun h => ?_, fun h => ?_⟩
  · unfold reconcileList
    simp only [trimItems_eq, bind, Except.bind, hafter, pure, Except.pure]
  · obtain ⟨hremoved, rfl⟩ := Changes.merge_eq_none h
    rw [hnone rfl]
    refine List.take_of_length_le ?_
    have := congrArg Changes.removed hremoved
    dsimp only at this
    omega
  · refine hjson fun p hp => ?_
    cases h with
    | list hfits =>
      have htake : (items.take next.length).zip next = (items.zip next).take next.length := by
        rw [List.zip, List.take_zipWith, List.take_length]
      rw [htake] at hp
      exact hfits p (List.mem_of_mem_take hp)
    | listOther hv => cases hv

theorem over_of_parts {v : Json} (hv : v.Ordered)
    (harr : ∀ items, v = .arr items → ∀ w ∈ items, w.Ordered ∧ S.Over w)
    (hobj : ∀ fields, v = .obj fields → ∀ f ∈ fields, f.2.Ordered ∧ S.Over f.2) : S.Over v := by
  intro cur hcur
  obtain ⟨fresh, hput, hfresh, hjson⟩ := putJson_ordered (S := S) hv
  -- where the shape changes it is written anew
  have hanew : reconcileProp (some cur) v = (do return (← putJson v, { changed := 1 })) →
      ∃ node changes, reconcileProp (some cur) v = .ok (node, changes) ∧
        node.Ordered ∧ (changes = {} → node = cur) ∧ (cur.Fits S v → S.json node = v) := by
    intro hprop
    refine ⟨fresh, { changed := 1 }, ?_, hfresh, fun h => (by cases h), fun _ => hjson⟩
    rw [hprop]
    simp only [bind, Except.bind, hput, pure, Except.pure]
  cases cur with
  | map entries =>
    cases v with
    | obj fields =>
      cases hv with
      | obj hkeys hvalues =>
      obtain ⟨after, changes, hafter, hordered, hnone, hfields⟩ := reconcileMap_over hkeys hvalues
        (fun f hf => (hobj fields rfl f hf).2) hcur
      refine ⟨.map after, changes, ?_, hordered, fun h => (by rw [hnone h]), fun h => ?_⟩
      · rw [reconcileProp.eq_def]
        simp only [bind, Except.bind, hafter, pure, Except.pure]
      · rw [json, hfields h]
    | _ => exact hanew (by rw [reconcileProp.eq_def])
  | list items =>
    cases v with
    | arr next =>
      cases hv with
      | arr hvalues =>
      cases hcur with
      | list hitems =>
      obtain ⟨after, changes, hafter, hordered, hnone, hnext⟩ := reconcileList_over hvalues
        (fun w hw => (harr next rfl w hw).2) hitems
      refine ⟨.list after, changes, ?_, .list hordered, fun h => (by rw [hnone h]), fun h => ?_⟩
      · rw [reconcileProp.eq_def]
        simp only [bind, Except.bind, hafter, pure, Except.pure]
      · rw [json, hnext h]
    | _ => exact hanew (by rw [reconcileProp.eq_def])
  | text content => exact hanew (by rw [reconcileProp.eq_def])
  | scalar s =>
    obtain ⟨hobject, harray⟩ := scalarToJson_leaf s
    by_cases hsame : (scalarToJson s).sameLeaf v = true
    · have heq := Json.sameLeaf_eq hsame
      refine ⟨.scalar s, {}, ?_, .scalar s, fun _ => rfl, fun h => ?_⟩
      · rw [reconcileProp.eq_def]
        rw [heq] at hobject harray hsame
        simp [heq, hobject, harray, hsame]
      · cases h with
        | scalar hs => rw [json, hs heq]
    · refine hanew ?_
      rw [reconcileProp.eq_def]
      simp [hsame]

/-- **Writing a value over any node**, by induction on the value. -/
theorem overAny {v : Json} (hv : v.Ordered) : S.Over v := by
  induction hv with
  | arr hitems ih =>
    refine over_of_parts (.arr hitems) (fun items h => ?_) fun _ h => nomatch h
    cases h
    exact fun w hw => ⟨hitems w hw, ih w hw⟩
  | obj hkeys hfields ih =>
    refine over_of_parts (.obj hkeys hfields) (fun _ h => nomatch h) fun fields h => ?_
    cases h
    exact fun f hf => ⟨hfields f hf, ih f hf⟩
  | null => exact over_of_parts .null (fun _ h => nomatch h) fun _ h => nomatch h
  | bool b => exact over_of_parts (.bool b) (fun _ h => nomatch h) fun _ h => nomatch h
  | num m e => exact over_of_parts (.num m e) (fun _ h => nomatch h) fun _ h => nomatch h
  | str s => exact over_of_parts (.str s) (fun _ h => nomatch h) fun _ h => nomatch h

/-- An object written into a document: that succeeds; it counts no change only where it makes none;
and the object is what the document then projects to, where it fits. -/
theorem applyJson_over {fields : List (String × Json)} (hfields : (Json.obj fields).Ordered)
    {root : List (String × Node)} (hroot : (Node.map root).Ordered) :
    ∃ after changes, AutoCommit.applyJson root (.obj fields) = .ok (after, changes) ∧
      (Node.map after).Ordered ∧ (changes = {} → after = root) ∧
      ((Node.map root).Fits S (.obj fields) → S.json (.map after) = .obj fields) := by
  cases hfields with
  | obj hkeys hvalues =>
  obtain ⟨after, changes, hafter, hordered, hnone, hjson⟩ := reconcileMap_over hkeys hvalues
    (fun f hf => S.overAny (hvalues f hf)) hroot
  exact ⟨after, changes, hafter, hordered, hnone, fun h => by rw [json, hjson h]⟩

/-! ### Two documents -/

/-- A projection with text objects as texts and bytes as numbers. -/
def plainly : AutoSerde where
  text s := .str s
  bytes b := .arr (b.map fun n => .num n.toNat 0)
  unknown _ _ := .null

/-- A board with a list of shapes, and a counter a replica synced in. -/
@[grind =]
def board : List (String × Node) :=
  [("shapes", .list [.map [("x", .scalar (.int 10))]]), ("votes", .scalar (.counter 3))]

theorem board_ordered : (Node.map board).Ordered := by
  refine .map (by decide +kernel) fun e he => ?_
  simp only [board, List.mem_cons, List.not_mem_nil, or_false] at he
  rcases he with rfl | rfl
  · refine .list fun node hnode => ?_
    rw [List.mem_singleton.1 hnode]
    exact .map (by decide +kernel) fun e he => List.mem_singleton.1 he ▸ .scalar _
  · exact .scalar _

theorem board_plain : (Node.map board).Plain plainly := by
  refine .map fun e he => ?_
  simp only [board, List.mem_cons, List.not_mem_nil, or_false] at he
  rcases he with rfl | rfl
  · refine .list fun node hnode => ?_
    rw [List.mem_singleton.1 hnode]
    exact .map fun e he => List.mem_singleton.1 he ▸ .scalar rfl
  · exact .scalar rfl

theorem board_reconciles : plainly.Reconciles board :=
  (reconciles_iff board_ordered).2 board_plain

/-- A board whose title a replica synced in as a text object. -/
@[grind =]
def titled : List (String × Node) :=
  [("title", .text "Board")]

/-- Its own projection is counted as a change, and writes the text object over. -/
theorem titled_changes : (Node.map titled).Ordered ∧
    AutoCommit.applyJson titled (plainly.json (.map titled)) =
      .ok ([("title", .scalar (.str "Board"))], { changed := 1 }) ∧
    diffChanges (plainly.json (.map titled)) (plainly.json (.map titled)) = {} ∧
    ¬plainly.Reconciles titled := by
  have hown : plainly.json (.map titled) = .obj [("title", .str "Board")] := by
    simp [json, jsonEntries, titled, plainly]
  have happly : AutoCommit.applyJson titled (plainly.json (.map titled)) =
      .ok ([("title", .scalar (.str "Board"))], { changed := 1 }) := by
    rw [hown, AutoCommit.applyJson]
    simp [reconcileMap, reconcileFields, trimFields, titled, reconcileProp.eq_def, putJson,
      Fields.put, bind, Except.bind, pure, Except.pure, Changes.merge]
  refine ⟨.map (by decide +kernel) fun e he => List.mem_singleton.1 he ▸ .text _, happly, ?_, ?_⟩
  · rw [hown]
    simp [diffChanges, diffFields, Json.sameLeaf, Changes.merge]
  · rintro ⟨-, h⟩
    rw [happly] at h
    simp [titled] at h

end AutoSerde

end LocalSpace
