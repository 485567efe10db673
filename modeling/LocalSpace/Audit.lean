import Mathlib.Data.String.Basic
import Mathlib.Data.List.Sort
import Mathlib.Logic.Encodable.Basic
import Mathlib.Logic.Equiv.List
import LocalSpace.Core
import LocalSpace.Library.HashChain

/-!
# The audit log

`audit.rs`. A record names the hash of the one before it; a directory has a file of lines for
each day, after the one file from before the log was cut by day. An open log holds the chain's
end and hands each record to its writer, which is a queue behind. Reading and writing JSON text
and blake3 come from a `Scribe`.
-/

namespace LocalSpace

/-- What the log takes from `serde_json` and blake3: a record's JSON on one line, the JSON a line
reads as, and a line's hash. -/
structure Scribe where
  Text : Type
  write : Json → Text
  read : Text → Option Json
  blake3 : Text → String

namespace Audit

def genesis : String := "genesis"

def legacyFile : String := "audit.jsonl"

structure Record where
  tsMs : UInt64
  id : String
  prev : String
  actor : Actor
  scope : Scope
  event : String
  detail : Json
  result : String

/-! ### A record as JSON -/

def actorJson (a : Actor) : Json :=
  .obj ([("user", .str a.user), ("session", .str a.session), ("ip", .str a.ip),
    ("role", .str a.role)] ++ match a.breakGlass with
      | some reason => [("break_glass", .str reason)]
      | none => [])

def scopeJson (s : Scope) : Json :=
  .obj [("workspace", .str s.workspace), ("conversation", .str s.conversation),
    ("document", .str s.document)]

def Record.toJson (r : Record) : Json :=
  .obj [("ts_ms", .num r.tsMs.toNat 0), ("id", .str r.id), ("prev", .str r.prev),
    ("actor", actorJson r.actor), ("scope", scopeJson r.scope), ("event", .str r.event),
    ("detail", r.detail), ("result", .str r.result)]

def asU64 : Json → Option UInt64
  | .num mantissa 0 =>
    if 0 ≤ mantissa ∧ mantissa.toNat < UInt64.size then some (UInt64.ofNat mantissa.toNat)
    else none
  | _ => none

/-- A field of text that may be left out. -/
def textOr (j : Json) (key default : String) : Option String :=
  match j.get? key with
  | none => some default
  | some value => value.asStr

def actorOf (j : Json) : Option Actor := do
  let user ← (← j.get? "user").asStr
  let session ← textOr j "session" ""
  let ip ← textOr j "ip" ""
  let role ← textOr j "role" ""
  let breakGlass ← match j.get? "break_glass" with
    | none | some .null => some none
    | some value => value.asStr.map some
  return ⟨user, session, ip, role, breakGlass⟩

def scopeOf (j : Json) : Option Scope := do
  match j with
  | .obj _ =>
    let workspace ← textOr j "workspace" ""
    let conversation ← textOr j "conversation" ""
    let document ← textOr j "document" ""
    return ⟨workspace, conversation, document⟩
  | _ => none

def Record.ofJson (j : Json) : Option Record := do
  let tsMs ← asU64 (← j.get? "ts_ms")
  let id ← (← j.get? "id").asStr
  let prev ← (← j.get? "prev").asStr
  let actor ← actorOf (← j.get? "actor")
  let scope ← scopeOf (← j.get? "scope")
  let event ← (← j.get? "event").asStr
  let detail ← j.get? "detail"
  let result ← (← j.get? "result").asStr
  return ⟨tsMs, id, prev, actor, scope, event, detail, result⟩

@[simp] theorem actorOf_actorJson (a : Actor) : actorOf (actorJson a) = some a := by
  obtain ⟨user, session, ip, role, breakGlass⟩ := a
  cases breakGlass <;> rfl

@[simp] theorem scopeOf_scopeJson (s : Scope) : scopeOf (scopeJson s) = some s := rfl

@[simp] theorem asU64_toNat (n : UInt64) : asU64 (.num n.toNat 0) = some n := by
  have hn := n.toNat_lt
  simp only [asU64]
  rw [if_pos ⟨by omega, by simpa [UInt64.size] using hn⟩]
  simp

/-- **A record is read back from its JSON**, every field of it, the optional one included. -/
@[simp] theorem Record.ofJson_toJson (r : Record) : Record.ofJson r.toJson = some r := by
  have htsMs : r.toJson.get? "ts_ms" = some (.num r.tsMs.toNat 0) := rfl
  have hid : r.toJson.get? "id" = some (.str r.id) := rfl
  have hprev : r.toJson.get? "prev" = some (.str r.prev) := rfl
  have hactor : r.toJson.get? "actor" = some (actorJson r.actor) := rfl
  have hscope : r.toJson.get? "scope" = some (scopeJson r.scope) := rfl
  have hevent : r.toJson.get? "event" = some (.str r.event) := rfl
  have hdetail : r.toJson.get? "detail" = some r.detail := rfl
  have hresult : r.toJson.get? "result" = some (.str r.result) := rfl
  simp only [Record.ofJson, htsMs, hid, hprev, hactor, hscope, hevent, hdetail, hresult,
    Option.bind_eq_bind, Option.bind_some, Json.asStr, asU64_toNat, actorOf_actorJson,
    scopeOf_scopeJson, Option.pure_def]

theorem Record.toJson_injective : Function.Injective Record.toJson := by
  intro r r' h
  have hread := congrArg Record.ofJson h
  rw [ofJson_toJson, ofJson_toJson] at hread
  exact Option.some.inj hread

end Audit

open Audit

namespace Scribe

variable (S : Scribe)

/-- The bytes the next record's `prev` hashes over. -/
def canonical (r : Record) : S.Text :=
  S.write r.toJson

def hash (r : Record) : String :=
  S.blake3 (S.canonical r)

end Scribe

namespace Audit

variable (S : Scribe)

/-! ### The chain -/

/-- Where in the files a record is. -/
structure Location where
  file : String
  line : Nat

inductive VerifyError where
  | broken (index : Nat) (id expected found : String) (at' : Option Location)
  | malformed (file : String) (line : Nat)

def verifyFrom : String → Nat → List Record → Except VerifyError Nat
  | _, i, [] => .ok i
  | prev, i, r :: rest =>
    if r.prev ≠ prev then .error (.broken i r.id prev r.prev none)
    else verifyFrom (S.hash r) (i + 1) rest

/-- Walk a chain of records; how many it holds. -/
def verifyChain (records : List Record) : Except VerifyError Nat :=
  verifyFrom S genesis 0 records

variable {S}

theorem verifyFrom_eq_ok {prev : String} {i n : Nat} {records : List Record} :
    verifyFrom S prev i records = .ok n ↔
      Library.Chained Record.prev S.hash prev records ∧ n = i + records.length := by
  induction records generalizing prev i with
  | nil =>
    simp only [verifyFrom, Library.Chained, List.length_nil, Except.ok.injEq, true_and,
      Nat.add_zero]
    exact eq_comm
  | cons r rest ih =>
    simp only [verifyFrom, Library.Chained, List.length_cons]
    by_cases hprev : r.prev = prev
    · rw [if_neg (not_not.mpr hprev), ih, and_assoc]
      constructor
      · rintro ⟨hrest, hn⟩
        exact ⟨hprev, hrest, by omega⟩
      · rintro ⟨_, hrest, hn⟩
        exact ⟨hrest, by omega⟩
    · rw [if_pos hprev]
      simp [hprev]

/-- A list passes exactly when it is a chain, and then its length is the answer. -/
theorem verifyChain_eq_ok {n : Nat} {records : List Record} : verifyChain S records = .ok n ↔
    Library.Chained Record.prev S.hash genesis records ∧ n = records.length := by
  simp only [verifyChain, verifyFrom_eq_ok, Nat.zero_add]

theorem hash_injective (hwrite : Function.Injective S.write)
    (hblake : Function.Injective S.blake3) : Function.Injective S.hash :=
  fun _ _ h => Record.toJson_injective (hwrite (hblake h))

/-- **The chain is tamper-evident up to its end**: two lists that pass and end in the same record
are the same, and a list that passes is extended by exactly the records that name the hash of
its last. -/
theorem last_record_commits (hwrite : Function.Injective S.write)
    (hblake : Function.Injective S.blake3) (hgenesis : ∀ t, S.blake3 t ≠ genesis)
    (records records' : List Record) (n n' : Nat) (h : verifyChain S records = .ok n)
    (h' : verifyChain S records' = .ok n') :
    (records.getLast? = records'.getLast? → records = records') ∧
    ∀ r, (verifyChain S (records ++ [r]) = .ok (n + 1)) ↔
      r.prev = (records.getLast?.map S.hash).getD genesis := by
  obtain ⟨hchain, hn⟩ := verifyChain_eq_ok.mp h
  obtain ⟨hchain', _⟩ := verifyChain_eq_ok.mp h'
  refine ⟨fun hlast => hchain.eq_of_getLast? (hash_injective hwrite hblake)
    (fun r => hgenesis _) hchain' hlast, fun r => ?_⟩
  rw [verifyChain_eq_ok, Library.chained_concat]
  constructor
  · rintro ⟨⟨_, hprev⟩, _⟩
    exact hprev
  · intro hprev
    exact ⟨⟨hchain, hprev⟩, by simp [hn]⟩

/-! ### A scribe that tells all records apart -/

def textCode (s : String) : Nat :=
  Encodable.encode (s.toList.map Char.toNat)

theorem textCode_injective : Function.Injective textCode := by
  intro s s' h
  have hlist := Encodable.encode_injective h
  refine String.toList_injective (List.map_injective_iff.mpr (fun c c' hc => ?_) hlist)
  exact Char.toNat_inj.mp hc

mutual

/-- A JSON value as a sequence of numbers, none of which begins another. -/
def code : Json → List Nat
  | .null => [0]
  | .bool b => [1, b.toNat]
  | .num mantissa exponent => [2, Encodable.encode mantissa, Encodable.encode exponent]
  | .str s => [3, textCode s]
  | .arr items => 4 :: codeItems items
  | .obj fields => 5 :: codeFields fields

def codeItems : List Json → List Nat
  | [] => [0]
  | j :: rest => 1 :: (code j ++ codeItems rest)

def codeFields : List (String × Json) → List Nat
  | [] => [0]
  | (key, j) :: rest => 1 :: textCode key :: (code j ++ codeFields rest)

end

mutual

theorem code_append : ∀ (j j' : Json) (s s' : List Nat), code j ++ s = code j' ++ s' →
    j = j' ∧ s = s'
  | .null, j', s, s', h => by cases j' <;> simp_all [code]
  | .bool b, j', s, s', h => by
    cases j' <;> simp_all [code]
    cases b <;> rename_i b' <;> cases b' <;> simp_all
  | .num m e, j', s, s', h => by
    cases j' <;> simp_all [code]
  | .str t, j', s, s', h => by
    cases j' <;> simp_all [code]
    exact textCode_injective h.1
  | .arr items, j', s, s', h => by
    cases j' <;> simp_all [code]
    rename_i items'
    exact codeItems_append items items' s s' h
  | .obj fields, j', s, s', h => by
    cases j' <;> simp_all [code]
    rename_i fields'
    exact codeFields_append fields fields' s s' h

theorem codeItems_append : ∀ (items items' : List Json) (s s' : List Nat),
    codeItems items ++ s = codeItems items' ++ s' → items = items' ∧ s = s'
  | [], items', s, s', h => by cases items' <;> simp_all [codeItems]
  | j :: rest, items', s, s', h => by
    cases items' with
    | nil => simp [codeItems] at h
    | cons j' rest' =>
      simp only [codeItems, List.cons_append, List.append_assoc, List.cons.injEq,
        true_and] at h
      obtain ⟨rfl, hrest⟩ := code_append j j' _ _ h
      obtain ⟨rfl, hs⟩ := codeItems_append rest rest' s s' hrest
      exact ⟨rfl, hs⟩

theorem codeFields_append : ∀ (fields fields' : List (String × Json)) (s s' : List Nat),
    codeFields fields ++ s = codeFields fields' ++ s' → fields = fields' ∧ s = s'
  | [], fields', s, s', h => by cases fields' <;> simp_all [codeFields]
  | (key, j) :: rest, fields', s, s', h => by
    cases fields' with
    | nil => simp [codeFields] at h
    | cons field' rest' =>
      obtain ⟨key', j'⟩ := field'
      simp only [codeFields, List.cons_append, List.append_assoc, List.cons.injEq,
        true_and] at h
      obtain ⟨hkey, h⟩ := h
      obtain rfl := textCode_injective hkey
      obtain ⟨rfl, hrest⟩ := code_append j j' _ _ h
      obtain ⟨rfl, hs⟩ := codeFields_append rest rest' s s' hrest
      exact ⟨rfl, hs⟩

end

/-- A scribe whose lines are the JSON itself, and whose hashes tell all JSON apart. -/
def plainScribe : Scribe where
  Text := Json
  write := id
  read := some
  blake3 j := String.ofList (List.replicate (Encodable.encode (code j)) 'b')

theorem plainScribe_write_injective : Function.Injective plainScribe.write :=
  Function.injective_id

theorem plainScribe_blake3_injective : Function.Injective plainScribe.blake3 := by
  intro j j' h
  have hlist : List.replicate (Encodable.encode (code j)) 'b' =
      List.replicate (Encodable.encode (code j')) 'b' := String.ofList_injective h
  have hcode : code j = code j' :=
    Encodable.encode_injective (by simpa using congrArg List.length hlist)
  exact (code_append j j' [] [] (by rw [hcode])).1

theorem plainScribe_blake3_ne (j : Json) : plainScribe.blake3 j ≠ genesis := by
  intro h
  have hlist : List.replicate (Encodable.encode (code j)) 'b' = genesis.toList := by
    rw [← h]
    exact String.toList_ofList.symm
  have hmem : 'g' ∈ List.replicate (Encodable.encode (code j)) 'b' := by
    rw [hlist]
    decide
  cases List.eq_of_mem_replicate hmem

def firstRecord : Record :=
  ⟨5, "a000000000000", genesis, ⟨"ana", "", "", "", none⟩, ⟨"", "", ""⟩, "login", .null, "ok"⟩

/-- A record after the first. -/
def secondRecord : Record :=
  { firstRecord with tsMs := 6, id := "a000000000001", prev := plainScribe.hash firstRecord }

/-- Two records pass, and neither with the first edited nor with it left out. -/
theorem last_record_commits_two :
    verifyChain plainScribe [firstRecord, secondRecord] = .ok 2 ∧
      verifyChain plainScribe [{ firstRecord with result := "refused" }, secondRecord] ≠ .ok 2 ∧
      verifyChain plainScribe [secondRecord] ≠ .ok 1 := by
  have hcommits := last_record_commits plainScribe_write_injective plainScribe_blake3_injective
    plainScribe_blake3_ne
  have htwo : verifyChain plainScribe ([firstRecord] ++ [secondRecord]) = .ok 2 :=
    ((hcommits [firstRecord] [firstRecord] 1 1 rfl rfl).2 secondRecord).mpr rfl
  refine ⟨htwo, fun h => ?_, fun h => ?_⟩
  · have hsame := (hcommits _ _ 2 2 htwo h).1 rfl
    simp [firstRecord] at hsame
  · have hsame := (hcommits _ _ 2 1 htwo h).1 rfl
    simp at hsame

end Audit

end LocalSpace
