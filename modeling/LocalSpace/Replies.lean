import LocalSpace.Harness
import LocalSpace.Proposals

/-!
# What of a model's reply is a call

`model.rs`: the readers that look for a tool call in a reply's text, on the streaming path and
on the whole one, and `agent.rs`'s use of them. `serde_json`'s reader is a parameter: the first
value of a text and what follows it.
-/

namespace LocalSpace

open Library

/-- `serde_json`'s reader: the first value of a text, after white space, and the rest. -/
structure JsonReader where
  next : List Char → Option (Json × List Char)
  /-- A value takes up something. -/
  used : ∀ text v rest, next text = some (v, rest) → ∃ taken, text = taken ++ rest ∧ taken ≠ []

/-- JSON's own white space. -/
def jsonSpace (c : Char) : Bool :=
  c = ' ' ∨ c = '\t' ∨ c = '\n' ∨ c = '\r'

/-- `str::trim`, on the text's characters. -/
def trimChars (text : List Char) : List Char :=
  ((text.dropWhile isWhitespace).reverse.dropWhile isWhitespace).reverse

def Blank (text : List Char) : Prop :=
  ∀ c ∈ text, isWhitespace c = true

instance (text : List Char) : Decidable (Blank text) :=
  inferInstanceAs (Decidable (∀ c ∈ text, _))

namespace JsonReader

variable (P : JsonReader)

/-- `serde_json::from_str`: one value, and white space after it. -/
def fromStr (text : List Char) : Option Json :=
  match P.next text with
  | some (v, rest) => if rest.all jsonSpace then some v else none
  | none => none

/-! ### The grammar's shape, and the bare one -/

/-- The text from the first `{` through the last `}`. -/
def braced (text : List Char) : Option (List Char) :=
  let start := text.dropWhile (· ≠ '{')
  let back := start.reverse.dropWhile (· ≠ '}')
  if back.isEmpty then none else some back.reverse

def parseGrammarCall (text : List Char) : Option ProposedCall := do
  let v ← P.fromStr (← braced text)
  let tool ← (← v.get? "tool").asStr
  return ⟨"call_0", tool, (v.get? "params").getD (.obj [])⟩

/-- The arguments of a call: an object, or a text that holds one. -/
def arguments : Json → Option Json
  | .obj fields => some (.obj fields)
  | .str inside =>
    match P.fromStr inside.toList with
    | some (.obj fields) => some (.obj fields)
    | _ => none
  | _ => none

/-- The name and the arguments of a call in the model's own shape: two members and no other. -/
@[grind =]
def named (value : Json) : Option (String × Json) := do
  let fields ← value.asObject
  if fields.length ≠ 2 then none
  let name ← (← fields.lookup "name").asStr
  let params ← P.arguments (← fields.lookup "arguments")
  some (name, params)

/-- A reply that is nothing but a call in the model's own shape, of a tool on offer. -/
def parseBareCall (text : List Char) (tools : List String) : Option ProposedCall := do
  let (name, params) ← P.named (← P.fromStr (trimChars text))
  if tools.contains (name.replace "__" ".") then
    some ⟨"call_0", name.replace "__" ".", params⟩
  else none

/-! ### The block finder -/

def isIdentifier (name : String) : Bool :=
  name ≠ "" ∧ name.toList.all fun c => c.isAlphanum ∨ c = '_' ∨ c = '.' ∨ c = '-'

/-- The tool and the arguments of a value in the shape of a call; a list's first item counts. -/
def callIn (value : Json) : Option (String × Json) := do
  let value ← match value with
    | .arr items => items.head?
    | value => some value
  let fields ← value.asObject
  if fields.length ≠ 2 then none
  let (name, args) ← match fields.lookup "name", fields.lookup "arguments" with
    | some name, some args => some (name, args)
    | _, _ => do
      let tool ← fields.lookup "tool"
      let params ← fields.lookup "params"
      some (tool, params)
  let name ← name.asStr
  let args ← P.arguments args
  if isIdentifier name then some (name, args) else none

/-- A block in the shape of a call: its tool and arguments, and the texts around it. -/
structure Found where
  tool : String
  params : Json
  before : List Char
  after : List Char

def spaces (c : Char) : Bool :=
  c = ' ' ∨ c = '\t'

def fence : List Char := ['`', '`', '`']

/-- What follows a start of a text. -/
def afterChars (start text : List Char) : Option (List Char) :=
  if start.isPrefixOf text then some (text.drop start.length) else none

/-- A code fence's tag that may hold a call: none, or `json`. -/
def jsonTag (tag : List Char) : Bool :=
  let tag := trimChars tag
  tag.isEmpty ∨ tag.map Char.toLower = ['j', 's', 'o', 'n']

/-- What follows a call in a code fence, through the closing fence when there is one. -/
def afterFence (rest : List Char) : List Char :=
  (afterChars fence (rest.dropWhile isWhitespace)).getD rest

/-- A call in a code fence that begins here: its tool and arguments, and what follows it. -/
def blockAt (text : List Char) : Option (String × Json × List Char) :=
  match afterChars fence text with
  | some inside =>
    let tag := inside.takeWhile (· ≠ '\n')
    if tag.length < inside.length ∧ jsonTag tag = true then
      match P.next ((inside.drop (tag.length + 1)).dropWhile spaces) with
      | some (v, rest) => (P.callIn v).map fun (tool, params) => (tool, params, afterFence rest)
      | none => none
    else none
  | none => none

theorem next_length {text rest : List Char} {v : Json} (h : P.next text = some (v, rest)) :
    rest.length < text.length := by
  obtain ⟨taken, rfl, hne⟩ := P.used text v rest h
  rw [List.length_append]
  have := List.length_pos_of_ne_nil hne
  omega

/-- The first block in the shape of a call that begins a line, from a place in the text: what
came before it, what is left, and whether the place is inside a code fence. -/
def callBlockFrom (before text : List Char) (inFence : Bool) : Option Found :=
  let line := text.takeWhile (· ≠ '\n')
  let lead := line.takeWhile spaces
  let head := line.dropWhile spaces
  let onward (inFence : Bool) : Option Found :=
    if h : line.length < text.length then
      callBlockFrom (before ++ line ++ ['\n']) (text.drop (line.length + 1)) inFence
    else none
  if inFence then onward (!fence.isPrefixOf head)
  else if fence.isPrefixOf head then
    match P.blockAt (text.drop lead.length) with
    | some (tool, params, after) => some ⟨tool, params, before, after⟩
    | none => onward true
  else if head.head? = some '{' ∨ head.head? = some '[' then
    match _hnext : P.next (text.drop lead.length) with
    | some (v, rest) =>
      match P.callIn v with
      | some (tool, params) => some ⟨tool, params, before, rest⟩
      | none =>
        -- not a call: its lines are its own
        callBlockFrom (before ++ (text.take (text.length - rest.length))) rest false
    | none => onward false
  else onward false
termination_by text.length
decreasing_by
  · simp only [List.length_drop]
    omega
  · have hlt := P.next_length _hnext
    rw [List.length_drop] at hlt
    omega

def trimEnd (text : List Char) : List Char :=
  (text.reverse.dropWhile isWhitespace).reverse

/-- The first block in the shape of a call that begins a line of a reply. -/
def callBlock (text : String) : Option CallBlock :=
  (P.callBlockFrom [] text.toList false).map fun found =>
    { tool := found.tool
      params := found.params
      alone := Blank found.before ∧ Blank found.after
      wordsAround := "\n".intercalate
        (([trimEnd found.before, found.after.dropWhile isWhitespace].filter
          fun words => !words.isEmpty).map String.ofList) }

/-! ### The two paths a reply comes by -/

/-- The calls a reply proposes: the engine's own, or else the grammar's in the text. -/
def replyOf (text : String) (engine : List ProposedCall) (completionTokens : Nat)
    (atLimit : Bool) : ChatReply where
  text := text
  calls := if engine.isEmpty then (P.parseGrammarCall text.toList).toList else engine
  completionTokens := completionTokens
  atLimit := atLimit

/-- What `read_sse` has gathered of a stream. -/
structure Gathered where
  text : String := ""
  /-- Id, name and arguments by a call's index; the arguments come in pieces. -/
  calls : List (String × String × String) := []
  completionTokens : Nat := 0
  finished : Bool := false
  atLimit : Bool := false

/-- A piece of a tool call of the engine's. -/
@[grind =]
def Gathered.piece (g : Gathered) (tc : Json) : Gathered :=
  let index := ((tc.atKey "index").asU64).getD 0
  let calls := g.calls ++ List.replicate (index + 1 - g.calls.length) ("", "", "")
  let function := tc.atKey "function"
  { g with calls := calls.modify index fun (id, name, args) =>
      (((tc.atKey "id").asStr).getD id, name ++ ((function.atKey "name").asStr).getD "",
        args ++ ((function.atKey "arguments").asStr).getD "") }

/-- One event of the stream. -/
@[grind =]
def Gathered.event (g : Gathered) (event : Json) : Except ReplyFailure Gathered :=
  if (event.get? "error").isSome then .error .other
  else
    let g := match event.get? "usage" with
      | none | some .null => g
      | some usage => { g with completionTokens := ((usage.atKey "completion_tokens").asU64).getD 0 }
    match (event.atKey "choices").first with
    | none => .ok g
    | some choice =>
      let g := match (choice.atKey "finish_reason").asStr with
        | some reason => { g with finished := true, atLimit := reason = "length" }
        | none => g
      let delta := choice.atKey "delta"
      let g := { g with text := g.text ++ ((delta.atKey "content").asStr).getD "" }
      .ok ((((delta.atKey "tool_calls").asArray).getD []).foldl Gathered.piece g)

/-- The lines of a stream, each with whether the person had stopped it when it came. -/
def gather (g : Gathered) : List (Bool × String) → Except ReplyFailure Gathered
  | [] => .ok g
  | (stopped, line) :: rest =>
    if stopped then .error .stopped
    else match afterChars "data:".toList line.toList with
      | none => gather g rest
      | some data =>
        let data := trimChars data
        if data = "[DONE]".toList then .ok { g with finished := true }
        else match P.fromStr data with
          | none => gather g rest
          | some event =>
            match g.event event with
            | .error e => .error e
            | .ok g => gather g rest

/-- The engine's own calls in a stream. -/
def Gathered.engine (g : Gathered) : List ProposedCall :=
  (g.calls.zipIdx.filter fun c => c.1.2.1 ≠ "").map fun ((id, name, args), i) =>
    ⟨if id = "" then s!"call_{i}" else id, name.replace "__" ".",
      (P.fromStr args.toList).getD (.obj [])⟩

def readSse (lines : List (Bool × String)) (stopped : Bool) : Except ReplyFailure ChatReply :=
  match P.gather {} lines with
  | .error e => .error e
  | .ok g =>
    if stopped then .error .stopped
    else if !g.finished then .error .cut
    else .ok (P.replyOf g.text (g.engine P) g.completionTokens g.atLimit)

/-- The engine's own calls in a whole reply. -/
def engineCalls (message : Json) : List ProposedCall :=
  (((message.atKey "tool_calls").asArray).getD []).zipIdx.map fun (c, i) =>
    let function := c.atKey "function"
    ⟨((c.atKey "id").asStr).getD s!"call_{i}",
      (((function.atKey "name").asStr).getD "").replace "__" ".",
      (P.fromStr (((function.atKey "arguments").asStr).getD "\x7b\x7d").toList).getD (.obj [])⟩

def parseOpenaiReply (res : Json) : Except ReplyFailure ChatReply :=
  if (res.get? "error").isSome then .error .other
  else match (res.atKey "choices").first with
    | none => .error .other
    | some choice =>
      let message := choice.atKey "message"
      .ok (P.replyOf (((message.atKey "content").asStr).getD "") (P.engineCalls message)
        ((((res.atKey "usage").atKey "completion_tokens").asU64).getD 0)
        (((choice.atKey "finish_reason").asStr) = some "length"))

/-- Every worker's reply passes here. -/
def withABareCallRead (reply : ChatReply) (tools : List String) : ChatReply :=
  if reply.calls.isEmpty then
    { reply with calls := (P.parseBareCall reply.text.toList tools).toList }
  else reply

/-- The ways a reply without a call of the engine's comes to its turn. -/
inductive Came (tools : List String) : ChatReply → Prop
  | streamed {lines : List (Bool × String)} {g : Gathered} {stopped : Bool} {reply : ChatReply}
      (hgather : P.gather {} lines = .ok g) (hengine : g.engine P = [])
      (hreply : P.readSse lines stopped = .ok reply) : Came tools (P.withABareCallRead reply tools)
  | whole {res choice : Json} {reply : ChatReply}
      (hchoice : (res.atKey "choices").first = some choice)
      (hengine : P.engineCalls (choice.atKey "message") = [])
      (hreply : P.parseOpenaiReply res = .ok reply) : Came tools (P.withABareCallRead reply tools)

/-! ### A reply that is nothing but a call -/

/-- A value in one of the shapes a call is written in. -/
def Shaped (v : Json) : Prop :=
  (P.callIn v).isSome = true ∨ (P.named v).isSome = true ∨
    ((v.get? "tool").bind Json.asStr).isSome = true

/-- A text begins with a block in the shape of a call, bare or in a code fence, and ends so. -/
def Block (text after : List Char) : Prop :=
  ∃ v lead, P.Shaped v ∧ (∀ c ∈ lead, spaces c = true) ∧
    ((∃ value, text = lead ++ value ∧ P.next value = some (v, after)) ∨
      ∃ tag pad value rest, text = lead ++ fence ++ tag ++ ['\n'] ++ pad ++ value ∧
        jsonTag tag = true ∧ (∀ c ∈ pad, spaces c = true) ∧ P.next value = some (v, rest) ∧
        after = afterFence rest)

/-- The text is a call and nothing else but white space. -/
def NothingButACall (text : List Char) : Prop :=
  (∃ v, P.fromStr (trimChars text) = some v ∧ P.Shaped v) ∨
    ∃ before block after, text = before ++ block ∧ P.Block block after ∧
      Blank before ∧ Blank after

variable {P} {text before : List Char}

theorem parseBareCall_eq_none (h : ¬P.NothingButACall text) (tools : List String) :
    P.parseBareCall text tools = none := by
  rw [Option.eq_none_iff_forall_not_mem]
  intro call hcall
  simp only [parseBareCall, Option.mem_def, bind, Option.bind_eq_some_iff] at hcall
  obtain ⟨v, hv, named, hnamed, -⟩ := hcall
  exact h (.inl ⟨v, hv, .inr (.inl (by rw [hnamed]; rfl))⟩)

/-- A text whose first line ends is that line, its end and the rest. -/
theorem line_split (h : (text.takeWhile (· ≠ '\n')).length < text.length) :
    text.takeWhile (· ≠ '\n') ++ ['\n'] ++
      text.drop ((text.takeWhile (· ≠ '\n')).length + 1) = text := by
  induction text with
  | nil => cases h
  | cons c rest ih =>
    by_cases hc : c = '\n'
    · subst hc
      rfl
    · have htake : (c :: rest).takeWhile (· ≠ '\n') = c :: rest.takeWhile (· ≠ '\n') :=
        List.takeWhile_cons_of_pos (by simpa using hc)
      rw [htake] at h ⊢
      simp only [List.length_cons, List.cons_append, List.drop_succ_cons, List.cons.injEq,
        true_and]
      exact ih (by simpa using h)

/-- A line's leading spaces, and the text from its first word on. -/
theorem lead_split (text : List Char) (p q : Char → Bool) :
    (text.takeWhile p).takeWhile q ++ text.drop ((text.takeWhile p).takeWhile q).length =
      text := by
  have hprefix : (text.takeWhile p).takeWhile q <+: text :=
    (List.takeWhile_prefix _).trans (List.takeWhile_prefix _)
  conv_rhs => rw [← List.take_append_drop ((text.takeWhile p).takeWhile q).length text]
  rw [← List.prefix_iff_eq_take.1 hprefix]

theorem mem_takeWhile {p : Char → Bool} {c : Char} (h : c ∈ text.takeWhile p) : p c = true :=
  List.all_eq_true.1 List.all_takeWhile c h

theorem afterChars_eq {start rest : List Char} (h : afterChars start text = some rest) :
    text = start ++ rest := by
  unfold afterChars at h
  split at h
  · next hprefix =>
    obtain ⟨tail, rfl⟩ := List.isPrefixOf_iff_prefix.1 hprefix
    rw [List.drop_left, Option.some.injEq] at h
    rw [h]
  · cases h

/-- A call in a code fence is a block. -/
theorem blockAt_block {lead : List Char} (hlead : ∀ c ∈ lead, spaces c = true) {tool : String}
    {params : Json} {after : List Char} (h : P.blockAt text = some (tool, params, after)) :
    P.Block (lead ++ text) after := by
  unfold blockAt at h
  split at h
  · next inside hinside =>
    dsimp only at h
    split at h
    · next hopens =>
      obtain ⟨hline, htag⟩ := hopens
      split at h
      · next v rest hnext =>
        obtain ⟨call, hcall, hfound⟩ := Option.map_eq_some_iff.1 h
        simp only [Prod.mk.injEq] at hfound
        refine ⟨v, lead, .inl (by rw [hcall]; rfl), hlead, .inr
          ⟨_, (inside.drop ((inside.takeWhile (· ≠ '\n')).length + 1)).takeWhile spaces, _, rest,
            ?_, htag, fun c hc => mem_takeWhile hc, hnext, hfound.2.2.symm⟩⟩
        rw [afterChars_eq hinside, List.append_assoc _ _ (List.dropWhile _ _),
          List.takeWhile_append_dropWhile, List.append_assoc, List.append_assoc,
          List.append_assoc, ← List.append_assoc _ ['\n'], line_split hline]
      · cases h
    · cases h
  · cases h

/-- What the block finder finds is a block, and the text is it and what is around it. -/
theorem callBlockFrom_block {inFence : Bool} {found : Found}
    (h : P.callBlockFrom before text inFence = some found) :
    ∃ block, before ++ text = found.before ++ block ∧ P.Block block found.after := by
  induction hn : text.length using Nat.strong_induction_on generalizing before text inFence with
  | _ n ih =>
    subst hn
    rw [callBlockFrom] at h
    dsimp only at h
    have hlead : ∀ c ∈ (text.takeWhile (· ≠ '\n')).takeWhile spaces, spaces c = true :=
      fun c hc => mem_takeWhile hc
    have hsplit := lead_split text (· ≠ '\n') spaces
    -- the search goes on with the next line
    have honward : ∀ inFence : Bool,
        (if _ : (text.takeWhile (· ≠ '\n')).length < text.length then
          P.callBlockFrom (before ++ text.takeWhile (· ≠ '\n') ++ ['\n'])
            (text.drop ((text.takeWhile (· ≠ '\n')).length + 1)) inFence
        else none) = some found →
          ∃ block, before ++ text = found.before ++ block ∧ P.Block block found.after := by
      intro inFence h
      split at h
      · next hlt =>
        have hshort : (text.drop ((text.takeWhile (· ≠ '\n')).length + 1)).length <
            text.length := by
          rw [List.length_drop]
          omega
        obtain ⟨block, hblock, hfound⟩ := ih _ hshort h rfl
        refine ⟨block, ?_, hfound⟩
        rw [← hblock, List.append_assoc, List.append_assoc, ← List.append_assoc _ ['\n'],
          line_split hlt]
      · cases h
    split at h
    · exact honward _ h
    · split at h
      · split at h
        · next tool params after hat =>
          rw [Option.some.injEq] at h
          subst h
          have hblock := blockAt_block hlead hat
          rw [hsplit] at hblock
          exact ⟨text, rfl, hblock⟩
        · exact honward _ h
      · split at h
        · split at h
          · next v rest hnext =>
            split at h
            · next tool params hcall =>
              rw [Option.some.injEq] at h
              subst h
              exact ⟨text, rfl, v, _, .inl (by rw [hcall]; rfl), hlead,
                .inl ⟨_, hsplit.symm, hnext⟩⟩
            · have hshort : rest.length < text.length := by
                have := P.next_length hnext
                rw [List.length_drop] at this
                omega
              obtain ⟨block, hblock, hfound⟩ := ih _ hshort h rfl
              refine ⟨block, ?_, hfound⟩
              obtain ⟨taken, htaken, -⟩ := P.used _ _ _ hnext
              rw [htaken, ← List.append_assoc] at hsplit
              rw [← hblock, List.append_assoc]
              congr 1
              conv_lhs => rw [← hsplit]
              conv_rhs => rw [← hsplit]
              rw [List.length_append, Nat.add_sub_cancel, List.take_left]
          · exact honward _ h
        · exact honward _ h

/-- Words around the call, and no block the finder finds is alone. -/
theorem callBlock_alone {text : String} (h : ¬P.NothingButACall text.toList) {block : CallBlock}
    (hblock : P.callBlock text = some block) : block.alone = false := by
  obtain ⟨found, hfound, rfl⟩ := Option.map_eq_some_iff.1 hblock
  obtain ⟨inner, htext, hinner⟩ := callBlockFrom_block hfound
  rw [List.nil_append] at htext
  dsimp only
  rw [decide_eq_false_iff_not]
  intro halone
  exact h (.inr ⟨_, inner, _, htext, hinner, halone⟩)

/-- A reply with words around its call proposes what the grammar's reader makes of it. -/
theorem Came.calls {tools : List String} {reply : ChatReply} (h : P.Came tools reply)
    (hwords : ¬P.NothingButACall reply.text.toList) :
    reply.calls = (P.parseGrammarCall reply.text.toList).toList := by
  have hread : ∀ r : ChatReply, r.calls = (P.parseGrammarCall r.text.toList).toList →
      ¬P.NothingButACall (P.withABareCallRead r tools).text.toList →
      (P.withABareCallRead r tools).calls =
        (P.parseGrammarCall (P.withABareCallRead r tools).text.toList).toList := by
    intro r hr hwords
    unfold withABareCallRead at hwords ⊢
    split
    · next hempty =>
      rw [if_pos hempty] at hwords
      dsimp only at hwords ⊢
      rw [parseBareCall_eq_none hwords, ← hr, List.isEmpty_iff.1 hempty]
      rfl
    · exact hr
  cases h with
  | streamed hgather hengine hreply =>
    refine hread _ ?_ hwords
    unfold readSse at hreply
    rw [hgather] at hreply
    dsimp only at hreply
    split at hreply
    · cases hreply
    · split at hreply
      · cases hreply
      · rw [hengine, Except.ok.injEq] at hreply
        rw [← hreply]
        rfl
  | whole hchoice hengine hreply =>
    refine hread _ ?_ hwords
    unfold parseOpenaiReply at hreply
    rw [hchoice] at hreply
    dsimp only at hreply
    split at hreply
    · cases hreply
    · rw [hengine, Except.ok.injEq] at hreply
      rw [← hreply]
      rfl

end JsonReader

namespace Core

variable {H : Host} {c s t : Core H} {id : Nat}

/-- Nothing was proposed to a turn, and nothing called. -/
def NothingCalled (s t : Core H) : Prop :=
  ∀ id, proposedOf t.deeds id = proposedOf s.deeds id ∧ callsOf t.deeds id = callsOf s.deeds id

/-- Of the acts of a turn that answers in words, only the model's asking is a deed. -/
theorem deeds_of_spoken {p : Part} (hp : p ∈ fine spokenActs) (h : Act p s t) :
    t.deeds = s.deeds ∨ ∃ id, t.deeds = s.deeds ++ [.asked id] := by
  cases p
  case asked =>
    obtain ⟨id, _, _, rfl⟩ := h
    exact .inr ⟨id, rfl⟩
  case mail =>
    obtain ⟨message, _, rfl⟩ := h
    unfold post
    rw [run_modify]
    dsimp only
    split <;> exact .inl rfl
  -- the rest are no deeds, or no acts of such a turn
  all_goals
    first
    | exact absurd hp (by decide)
    | obtain ⟨_, _, rfl⟩ := h; exact .inl rfl
    | obtain ⟨_, _, _, rfl⟩ := h; exact .inl rfl
    | obtain ⟨_, _, _, _, rfl⟩ := h; exact .inl rfl
    | obtain ⟨_, _, _, _, _, rfl⟩ := h; exact .inl rfl
    | obtain ⟨_, _, _, _, _, _, _, _, _, _, _, _, _, _, rfl⟩ := h; exact .inl rfl

/-- What a reply leads to when it is taken for words does nothing for a turn but ask the model. -/
theorem Sound.nothing_called (hs : s.Sound) (h : Does Act spokenActs s t) : NothingCalled s t := by
  refine hs.keeps (I := NothingCalled s) h ?_ fun _ => ⟨rfl, rfl⟩
  intro p hp u v _ hact hu
  obtain hsame | ⟨asked, hasked⟩ := deeds_of_spoken hp hact
  · intro id
    rw [hsame]
    exact hu id
  · intro id
    rw [hasked]
    simp only [proposedOf, callsOf, List.map_append, List.sum_append, List.count_append]
    simpa [Deed.takes, proposedOf, callsOf] using hu id

/-- The turn says the reply's words to its person, and ends. -/
def sayWords (turn : Turn) (step : StepEnd) (reply : ChatReply) : Program H Unit := do
  match afterPrefix step.shown reply.text with
  | some rest => sayRest turn.conversation rest
  | none => pure ()
  keep turn.id ⟨reply.text, step.thought, reply.atLimit, cutAt step reply⟩
  endTurn turn.id .done

/-- A reply is taken for words: nothing is proposed or called; the model is told, the first
time, or the person answered. -/
def TakenForWords (c : Core H) (turn : Turn) (step : StepEnd) (reply : ChatReply) : Prop :=
  NothingCalled c ((replied turn.id step).run c).2 ∧
    ((∃ block offered, (replied turn.id step).run c =
        (do activate turn.caller; attempted turn step block offered : Program H Unit).run c) ∨
      (replied turn.id step).run c =
        (do activate turn.caller; sayWords turn step reply : Program H Unit).run c)

theorem takeCalls_deeds (calls : List ProposedCall) (c : Core H) :
    ((takeCalls id calls).run c).2.deeds = c.deeds ++ [.proposed id calls.length] := by
  unfold takeCalls post
  rw [run_bind, run_modify]
  dsimp only
  rw [run_modify]
  dsimp only
  split <;> rfl

/-- A reply is heard by whoever its turn is of: its calls are taken, or else it is answered. -/
theorem replied_run {turn : Turn} {step : StepEnd} {reply : ChatReply}
    (hturn : c.turnOf turn.id = some turn) (hstep : step.repeated = none)
    (hreply : step.reply = .ok reply) :
    (replied turn.id step).run c =
      (if reply.calls.isEmpty then answered turn step reply
        else takeCalls turn.id reply.calls).run ((activate turn.caller).run c).2 := by
  unfold replied
  rw [run_bind, run_get]
  dsimp only
  rw [hturn]
  dsimp only
  rw [run_bind, hstep, hreply]

/-- A reply whose calls are taken is not taken for words. -/
theorem proposed_of_calls {turn : Turn} {step : StepEnd} {reply : ChatReply} (hs : c.Sound)
    (hturn : c.turnOf turn.id = some turn) (hstep : step.repeated = none)
    (hreply : step.reply = .ok reply) (hcalls : reply.calls ≠ []) :
    proposedOf ((replied turn.id step).run c).2.deeds turn.id =
      proposedOf c.deeds turn.id + reply.calls.length := by
  obtain ⟨st, _, hseated⟩ := activate_seats hs (turnOf_mem hturn).1
  rw [replied_run hturn hstep hreply, if_neg (by simpa using hcalls), takeCalls_deeds, hseated]
  simp [proposedOf, Deed.takes, seated]

/-- **A reply with words around its call is taken for words exactly where the grammar's reader
reads no call in it**, by whichever path it came. -/
theorem words_iff {P : JsonReader} (hfinder : H.callBlock = P.callBlock) {tools : List String}
    {turn : Turn} {step : StepEnd} {reply : ChatReply} (hs : c.Sound) (hbegun : turn.id ∈ c.begins)
    (hturn : c.turnOf turn.id = some turn) (hstep : step.repeated = none)
    (hreply : step.reply = .ok reply) (hcame : P.Came tools reply)
    (hwords : ¬P.NothingButACall reply.text.toList) :
    c.TakenForWords turn step reply ↔ P.parseGrammarCall reply.text.toList = none := by
  have hcalls := hcame.calls hwords
  have hspeak := Speaking.sound (H := H) turn.id (List.Subset.refl spokenActs)
  constructor
  · rintro ⟨huntouched, -⟩
    by_contra hgrammar
    obtain ⟨call, hcall⟩ := Option.ne_none_iff_exists'.1 hgrammar
    rw [hcall, Option.toList_some] at hcalls
    have hmore := proposed_of_calls hs hturn hstep hreply (by rw [hcalls]; simp)
    have hsame := (huntouched turn.id).1
    rw [hmore, hcalls, List.length_singleton] at hsame
    omega
  · intro hnone
    rw [hnone, Option.toList_none] at hcalls
    have hrun := replied_run hturn hstep hreply
    rw [if_pos (by rw [hcalls]; rfl)] at hrun
    -- the answer is given by acts of a turn that speaks
    have hspoken : ∀ m : Program H Unit,
        (∀ t : Core H, t.turnOf turn.id = some turn →
          SoundlyFor turn.id spokenActs t (m.run t).2) →
          (replied turn.id step).run c = m.run ((activate turn.caller).run c).2 →
            NothingCalled c ((replied turn.id step).run c).2 := by
      intro m hm heq
      rw [heq]
      exact hs.nothing_called (hspeak.seat hturn hm ⟨hs, hbegun⟩).1
    unfold answered at hrun
    rw [hfinder] at hrun
    split at hrun
    · next block hblock =>
      rw [run_bind, run_get] at hrun
      dsimp only at hrun
      rw [JsonReader.callBlock_alone hwords hblock, Bool.and_false, if_neg (by simp)] at hrun
      exact ⟨hspoken _ (fun t ht => attempted_within hspeak step block _ ht) hrun,
        .inl ⟨block, _, hrun⟩⟩
    · exact ⟨hspoken _ (fun t _ => words_within hspeak step reply t) hrun, .inr hrun⟩

/-! ### A warning taken for the action it warns of -/

/-- The one call this host's reader reads. -/
def setCall : List Char :=
  "\x7b\"tool\": \"notes.set\", \"params\": \x7b\x7d\x7d".toList

/-- A reader that reads that call and no other value. -/
def setReader : JsonReader where
  next text := (JsonReader.afterChars setCall text).map fun rest =>
    (.obj [("tool", .str "notes.set"), ("params", .obj [])], rest)
  used text v rest h := by
    obtain ⟨rest', hrest, heq⟩ := Option.map_eq_some_iff.1 h
    obtain ⟨-, rfl⟩ := Prod.mk.inj heq
    exact ⟨setCall, JsonReader.afterChars_eq hrest, by decide⟩

def setHost : Host :=
  { Sample.host with callBlock := setReader.callBlock }

/-- A reply that names the call not to make. -/
def warning : String :=
  "Do not run " ++ String.ofList setCall ++ " yet."

def warningReply : ChatReply :=
  setReader.withABareCallRead (setReader.replyOf warning [] 0 false) []

def warningStep : StepEnd :=
  ⟨.ok warningReply, "", "", none, true, 0⟩

/-- Ana's question is answered with the warning, on its way to her turn. -/
def warned : Core setHost :=
  (system setHost).run (.start (Sample.server 1) [Sample.staged Sample.notes])
    (Sample.signUp ++ [.request Sample.ana (.sendMessage "hello" none []), .read 0 warningStep])

theorem warned_reach : Reach (fun _ _ => True) warned :=
  ⟨_, _, System.runs_of_list (by decide +kernel)⟩

theorem warned_turn : ∃ turn, turn.id = 1 ∧ warned.turnOf turn.id = some turn ∧
    turn.id ∈ warned.begins := by
  have hturn : (warned.turnOf 1).isSome = true := by decide +kernel
  obtain ⟨turn, hturn⟩ := Option.isSome_iff_exists.1 hturn
  obtain ⟨-, hid⟩ := turnOf_mem hturn
  exact ⟨turn, hid, hid ▸ hturn, hid ▸ (by decide +kernel : 1 ∈ warned.begins)⟩

/-- The warning as the engine hands it back. -/
def warningJson : Json :=
  .obj [("choices", .arr [.obj [("message", .obj [("content", .str warning)])]])]

theorem warning_came : setReader.Came [] warningReply :=
  .whole (rfl : (warningJson.atKey "choices").first = some _) rfl rfl

theorem warning_words : ¬setReader.NothingButACall warning.toList := by
  have hchars : warning.toList = 'D' :: warning.toList.tail := by decide
  rintro (⟨v, hv, -⟩ | ⟨before, block, after, htext, ⟨v, lead, -, hlead, hblock⟩, hbefore, -⟩)
  · have hnone : setReader.fromStr (trimChars warning.toList) = none := by
      decide
    rw [hnone] at hv
    cases hv
  · rw [hchars] at htext
    -- the text's first character is of its first word
    have hbefore : before = [] := by
      cases before with
      | nil => rfl
      | cons c _ =>
        obtain ⟨rfl, -⟩ := List.cons.inj htext
        exact absurd (hbefore 'D' List.mem_cons_self) (by decide)
    subst hbefore
    rw [List.nil_append] at htext
    have hlead : lead = [] := by
      cases lead with
      | nil => rfl
      | cons c _ =>
        obtain ⟨value, rfl, -⟩ | ⟨tag, pad, value, rest, rfl, -⟩ := hblock
        all_goals
          obtain ⟨rfl, -⟩ := List.cons.inj htext
          exact absurd (hlead 'D' List.mem_cons_self) (by decide)
    subst hlead
    obtain ⟨value, rfl, hnext⟩ | ⟨tag, pad, value, rest, rfl, -⟩ := hblock
    · rw [← htext, ← hchars] at hnext
      have hnone : setReader.next warning.toList = none := by decide
      rw [hnone] at hnext
      cases hnext
    · obtain ⟨h, -⟩ := List.cons.inj htext
      exact absurd h (by decide)

theorem warned_taken : ∃ turn, warned.turnOf turn.id = some turn ∧
    (warned.TakenForWords turn warningStep warningReply ↔
      setReader.parseGrammarCall warning.toList = none) := by
  obtain ⟨turn, -, hturn, hbegun⟩ := warned_turn
  exact ⟨turn, hturn, words_iff rfl (ready_of_reach warned_reach).1 hbegun hturn rfl rfl
    warning_came warning_words⟩

/-- The warning is not taken for words: the call it names is made. -/
theorem warning_heeded : ∃ turn, warned.turnOf turn.id = some turn ∧
    setReader.Came [] warningReply ∧ ¬setReader.NothingButACall warningReply.text.toList ∧
    ¬warned.TakenForWords turn warningStep warningReply ∧
    callsOf ((warned.step (.posted 0)).step (.posted 0)).deeds turn.id = 1 := by
  obtain ⟨turn, hid, hturn, -⟩ := warned_turn
  have hcalls : warningReply.calls ≠ [] := by decide
  refine ⟨turn, hturn, warning_came, warning_words, fun ⟨huntouched, _⟩ => ?_, ?_⟩
  · have hmore := proposed_of_calls (ready_of_reach warned_reach).1 hturn
      (rfl : warningStep.repeated = none) rfl hcalls
    have hsame := (huntouched turn.id).1
    have hpos := List.length_pos_of_ne_nil hcalls
    omega
  · rw [hid]
    decide +kernel

end Core

end LocalSpace
