import LocalSpace.Run

/-!
# A small host, and packages to run on it

A host on which Core's runs can be computed: a document holds one number, hashes and ids are
short, packages' logics are one function each. It has `notes`, an ordinary harness with a tool
that asks first and one that only reads, and is what the runs that show a property lost, or a
hypothesis met, are made on.
-/

namespace LocalSpace.Sample

/-- What a document that holds a number projects to; zero is the empty document. -/
def numberJson (n : Nat) : Json :=
  if n = 0 then .obj [] else .obj [("n", .num n 0)]

/-- The number in a document's fields, if it is there. -/
def numberIn (fields : List (String × Json)) : Option Nat :=
  match fields.lookup "n" with
  | some (.num mantissa _) => some mantissa.toNat
  | _ => none

/-- A digest of some bytes. -/
def digest (bytes : Bytes) : String :=
  s!"h{bytes.foldl (fun h b => (h * 257 + b.toNat) % 1000000007) 7}"

/-- The text of a JSON value, as far as documents need one. -/
@[grind =]
def text : Json → String
  | .obj [(_, .num mantissa _)] => s!"n is {mantissa}"
  | .obj [] => "empty"
  | _ => "a value"

/-- An id nobody else has. -/
@[grind =]
def unique (n : Nat) : String :=
  String.ofList (List.replicate n 'i')

/-- The next number handed back for a document. -/
@[grind =]
def next (doc : Json) : Json :=
  match doc.asObject.bind numberIn with
  | some n => numberJson (n + 1)
  | none => numberJson 1

/-- What a tool answers: `notes.peek`, which is declared to read only, hands the document back
changed all the same. -/
def answer (tool : String) (handoffs : List (String × String)) (doc : Json) : HarnessOutput where
  ok := true
  result := .obj (handoffs.map fun h => (h.1, .str h.2))
  error := none
  diffSummary := none
  doc := if tool = "notes.look" then none else some (next doc)
  logs := []

def host : Host where
  Crdt := Nat
  Sync := Nat
  newCrdt := 0
  loadCrdt bytes := bytes.head?.map UInt8.toNat
  saveCrdt n := [n.toUInt8]
  crdtJson := numberJson
  heads n := if n = 0 then [] else [s!"v{n}"]
  reconcile n fields :=
    match numberIn fields with
    | some m => (m, .ok { changed := if m = n then 0 else 1 })
    | none => (n, .ok {})
  newSync := 0
  generate n sent := if sent = n then (none, sent) else (some [n.toUInt8], n)
  receive n _ message :=
    match message with
    | [b] => .ok (b.toNat, b.toNat)
    | [] => .ok (n, 0)
    | _ => .error "not a message"
  diffChanges _ _ := { changed := 1 }
  blake3 := digest
  clock n := n
  uuid := unique
  encode _ := []
  render := text
  fileName title _ _ := title
  titleFrom words := words
  staged _ path := .error s!"no package at {path}"
  lock _ := .obj [("packages", .arr [])]
  starts _ _ := .ok ()
  call _ _ tool _ handoffs doc := .ok (answer tool handoffs doc)
  context _ _ _ _ doc := .ok (text doc, false)
  view _ _ _ doc := .ok doc
  event _ _ _ _ doc := .ok ([], some (next doc))
  overBudget _ _ := none
  widgets tree := .ok tree
  widgetEvent _ := []
  suite _ _ := .ok ["try it"]
  reply _ _ := ⟨.error .other, "", "", none, true, 0⟩
  callBlock _ := none
  answerRoom := 1000
  toolCost _ := 1
  validateParams _ _ := .ok ()
  rankCapabilities _ _ := []
  estimateTokens _ := 1
  truncateToBudget words _ := words
  attach _ _ _ names := .ok names
  Gateway := Unit
  newGateway := ()
  setMode g _ := (g, .airgapped)
  networkMode _ := .airgapped
  offersSearch _ := false
  egress _ _ := .denied "the environment is air-gapped"
  hostOf _ := none
  approveDomain g _ := g
  search _ g _ _ := (g, .error "air-gapped")
  fetch _ g _ _ := (g, .error "air-gapped")
  untrusted _ words := words
  patience := 8

/-- The same host with a hash that tells all contents apart: the content itself, spelled out. -/
def spelled : Host :=
  { host with blake3 := fun bytes => String.ofList (bytes.map fun b => Char.ofNat b.toNat) }

theorem spelled_injective : Function.Injective spelled.blake3 := by
  intro a b h
  have hchars := congrArg String.toList h
  simp only [spelled, String.toList_ofList] at hchars
  refine List.map_injective_iff.2 (fun x y hxy => ?_) hchars
  have hbytes : ∀ n : UInt8, (Char.ofNat n.toNat).toNat = n.toNat := fun n => by
    have hvalid : n.toNat.isValidChar := .inl (n.toNat_lt.trans (by decide))
    rw [Char.ofNat, dif_pos hvalid]
    rfl
  have := congrArg Char.toNat hxy
  rw [hbytes, hbytes] at this
  exact UInt8.toNat_inj.1 this

/-- A tool of `notes`. -/
def tool (name : String) (kind : ToolKind) (confirm : Confirm) : ToolDecl :=
  ⟨name, name, .null, kind, true, true, confirm⟩

/-- A harness with a tool that writes after asking, one that writes, and two that read. -/
@[grind =]
def notes : Installed where
  id := "notes"
  title := "Notes"
  kind := .harness
  views := ["page"]
  docKind := .crdt
  contextProvider := true
  accepts := ["note"]
  produces := ["note"]
  tools := [tool "notes.ask" .write .always, tool "notes.set" .write .never,
    tool "notes.peek" .read .never, tool "notes.look" .read .never]
  types := [("note", ⟨"text/plain", "txt", []⟩)]
  logicMemoryMb := 1
  enabled := true

/-- A second harness, with a tool that writes. -/
def sheets : Installed :=
  { notes with
    id := "sheets"
    title := "Sheets"
    accepts := []
    produces := []
    tools := [tool "sheets.set" .write .never]
    types := [] }

@[grind =]
def staged (package : Installed) : Staged :=
  ⟨package, fun _ => [], none, fun _ => .ok []⟩

/-- A server whose people sign in, with so many slots. -/
def server (slots : Nat) : Config :=
  ⟨"server", true, slots, [], ⟨100, 100, 100, 100⟩⟩

/-- Somebody's own computer. -/
def computer : Config :=
  ⟨"me", false, 1, [], ⟨100, 100, 100, 100⟩⟩

/-- Whoever's computer it is. -/
def me : Caller :=
  .localUser "me"

/-- A person signed in on the server, by the number their account's id was made from. -/
def person (n : Nat) (roles : List UserRole) : Caller :=
  ⟨s!"u_{unique n}", "s", "", roles, []⟩

/-- Ana, the server's first administrator. -/
@[grind =]
def ana : Caller :=
  person 3 [.admin]

/-- Ben, whose account she made. -/
def ben : Caller :=
  person 5 [.member]

/-- Their accounts made, on a server just started. -/
def signUp : List Message :=
  [.system (.firstAdmin "ana@x"), .request ana (.createUser "ben@x" [.member])]

/-- A model step that ended with a call of a tool. -/
@[grind =]
def calls (tool : String) : StepEnd :=
  ⟨.ok ⟨"", [⟨"call", tool, .obj []⟩], 0, false⟩, "", "", none, true, 0⟩

end LocalSpace.Sample
