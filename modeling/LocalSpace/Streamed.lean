import LocalSpace.CarriedOn
import LocalSpace.Library.Assembled
import LocalSpace.Replies

/-!
# Replies streamed and whole

`model.rs`: an engine's reply comes as a stream of events (`read_sse`) or as one value
(`parse_openai_reply`). However a finished reply is cut into events, both read the same, but for a
call whose id is the empty text: the stream names it by its place, and the whole reply does not.
-/

namespace LocalSpace

namespace JsonReader

open Library CarryOn

/-! ### Reading, with the thinking and what is said on the way -/

/-- What `read_sse` has gathered, the model's thinking and the pieces handed on included. -/
structure Heard extends Gathered where
  reasoning : String := ""
  deltas : List Delta := []

/-- A piece of words or of thinking, passed on where it is not empty. -/
def passed (delta : List Char → Delta) (piece : String) : List Delta :=
  if piece = "" then [] else [delta piece.toList]

@[grind =]
def Heard.event (h : Heard) (event : Json) : Except ReplyFailure Heard :=
  match h.toGathered.event event with
  | .error e => .error e
  | .ok g =>
    match (event.atKey "choices").first with
    | none => .ok { h with toGathered := g }
    | some choice =>
      let delta := choice.atKey "delta"
      let words := ((delta.atKey "content").asStr).getD ""
      let thinking := ((delta.atKey "reasoning_content").asStr).getD ""
      .ok { toGathered := g
            reasoning := h.reasoning ++ thinking
            deltas := h.deltas ++ passed .words words ++ passed .thinking thinking }

/-- A reply with the model's thinking, and the pieces of it that were handed on. -/
structure Read where
  reply : ChatReply
  reasoning : String
  deltas : List Delta

section Readers

variable (P : JsonReader)

def hear (h : Heard) : List (Bool × String) → Except ReplyFailure Heard
  | [] => .ok h
  | (stopped, line) :: rest =>
    if stopped then .error .stopped
    else match afterChars "data:".toList line.toList with
      | none => hear h rest
      | some data =>
        let data := trimChars data
        if data = "[DONE]".toList then .ok { h with finished := true }
        else match P.fromStr data with
          | none => hear h rest
          | some event =>
            match h.event event with
            | .error e => .error e
            | .ok h => hear h rest

/-- `read_sse`. -/
def readStream (lines : List (Bool × String)) (stopped : Bool) : Except ReplyFailure Read :=
  match P.hear {} lines with
  | .error e => .error e
  | .ok h =>
    if stopped then .error .stopped
    else if !h.finished then .error .cut
    else .ok ⟨P.replyOf h.text (h.toGathered.engine P) h.completionTokens h.atLimit, h.reasoning,
      h.deltas⟩

/-- `parse_openai_reply`; it hands nothing on. -/
def readWhole (res : Json) : Except ReplyFailure Read :=
  match P.parseOpenaiReply res with
  | .error e => .error e
  | .ok reply =>
    let message := (((res.atKey "choices").first).getD .null).atKey "message"
    .ok ⟨reply, ((message.atKey "reasoning_content").asStr).getD "", []⟩

end Readers

/-! ### Finished replies, and how they are streamed -/

structure FinishedCall where
  id : Option String
  name : String
  arguments : Option String

/-- What a model has said when it is finished. -/
structure FinishedReply where
  text : String
  thinking : String
  calls : List FinishedCall
  reason : Option String

/-- A value that says one call of a reply. -/
structure SaysCall (c : FinishedCall) (tc : Json) : Prop where
  id : (tc.atKey "id").asStr = c.id
  name : ((tc.atKey "function").atKey "name").asStr = some c.name
  arguments : ((tc.atKey "function").atKey "arguments").asStr = c.arguments

/-- A value that says the whole of a reply. -/
structure SaysWhole (r : FinishedReply) (res choice : Json) : Prop where
  error : (res.get? "error").isSome = false
  chosen : (res.atKey "choices").first = some choice
  text : (((choice.atKey "message").atKey "content").asStr).getD "" = r.text
  thinking : (((choice.atKey "message").atKey "reasoning_content").asStr).getD "" = r.thinking
  calls : List.Forall₂ SaysCall r.calls
    ((((choice.atKey "message").atKey "tool_calls").asArray).getD [])
  reason : (choice.atKey "finish_reason").asStr = r.reason

/-- A piece of a call. -/
structure CallPiece where
  id : Option String
  name : String
  arguments : String

/-- What an event adds to a reply; the pieces of calls have their calls' indexes. -/
structure Event where
  words : String := ""
  thinking : String := ""
  calls : List (ℕ × CallPiece) := []
  reason : Option String := none

def pieceOf (tc : Json) : ℕ × CallPiece :=
  let function := tc.atKey "function"
  (((tc.atKey "index").asU64).getD 0, ⟨(tc.atKey "id").asStr,
    ((function.atKey "name").asStr).getD "", ((function.atKey "arguments").asStr).getD ""⟩)

/-- What an event says: nothing where it has no choice. -/
def eventOf (event : Json) : Event :=
  match (event.atKey "choices").first with
  | none => {}
  | some choice =>
    let delta := choice.atKey "delta"
    { words := ((delta.atKey "content").asStr).getD ""
      thinking := ((delta.atKey "reasoning_content").asStr).getD ""
      calls := (((delta.atKey "tool_calls").asArray).getD []).map pieceOf
      reason := (choice.atKey "finish_reason").asStr }

/-- The lines of a stream that nobody stops, with the events they carry and whether they come to the
stream's end: comments and blank lines carry nothing, and what follows the end is not read. -/
inductive Lines (P : JsonReader) : List (Bool × String) → List Event → Bool → Prop
  | nil : Lines P [] [] false
  | skip {line : String} {rest : List (Bool × String)} {es : List Event} {done : Bool}
    (hline : afterChars "data:".toList line.toList = none) (h : Lines P rest es done) :
    Lines P ((false, line) :: rest) es done
  | done {line : String} {rest : List (Bool × String)} {data : List Char}
    (hline : afterChars "data:".toList line.toList = some data)
    (hdone : trimChars data = "[DONE]".toList) : Lines P ((false, line) :: rest) [] true
  | event {line : String} {rest : List (Bool × String)} {data : List Char} {event : Json}
    {es : List Event} {done : Bool} (hline : afterChars "data:".toList line.toList = some data)
    (hdone : trimChars data ≠ "[DONE]".toList) (hevent : P.fromStr (trimChars data) = some event)
    (herror : (event.get? "error").isSome = false) (h : Lines P rest es done) :
    Lines P ((false, line) :: rest) (eventOf event :: es) done

/-- A call is cut into pieces: its id is with some of them, its name and arguments run through
them. -/
structure CutCall (c : FinishedCall) (ps : List CallPiece) : Prop where
  id : ∀ p ∈ ps, p.id = none ∨ p.id = c.id
  given : c.id.isSome = true → ∃ p ∈ ps, p.id = c.id
  name : ps.flatMap (·.name.toList) = c.name.toList
  arguments : ps.flatMap (·.arguments.toList) = (c.arguments.getD "").toList

/-- A reply is cut into events, its parts interleaved in any way. -/
structure Cut (r : FinishedReply) (es : List Event) : Prop where
  words : es.flatMap (·.words.toList) = r.text.toList
  thinking : es.flatMap (·.thinking.toList) = r.thinking.toList
  within : ∀ p ∈ es.flatMap Event.calls, p.1 < r.calls.length
  calls : ∀ i (h : i < r.calls.length), CutCall r.calls[i] (piecesOf i (es.flatMap Event.calls))
  reason : es.filterMap Event.reason = r.reason.toList

/-- A stream of a finished reply. -/
def Streams (P : JsonReader) (r : FinishedReply) (lines : List (Bool × String)) : Prop :=
  ∃ es done, Lines P lines es done ∧ Cut r es ∧ (done = true ∨ r.reason.isSome = true)

/-- A reply is read from a stream as it is read whole, and its words are handed on. -/
def ReadsAlike (P : JsonReader) (lines : List (Bool × String)) (res : Json) : Prop :=
  ∃ streamed whole, P.readStream lines false = .ok streamed ∧ P.readWhole res = .ok whole ∧
    streamed.reply.text = whole.reply.text ∧ streamed.reasoning = whole.reasoning ∧
    streamed.reply.calls = whole.reply.calls ∧ streamed.reply.atLimit = whole.reply.atLimit ∧
    wordsOf streamed.deltas = whole.reply.text.toList

/-! ### What a stream comes to -/

/-- What a call's place holds when a piece has come. -/
@[grind =]
def slot (held : String × String × String) (p : CallPiece) : String × String × String :=
  (p.id.getD held.1, held.2.1 ++ p.name, held.2.2 ++ p.arguments)

/-- What some events make of what was gathered before them. -/
structure Heard.After (h : Heard) (es : List Event) (done : Bool) (h' : Heard) : Prop where
  text : h'.text.toList = h.text.toList ++ es.flatMap (·.words.toList)
  reasoning : h'.reasoning.toList = h.reasoning.toList ++ es.flatMap (·.thinking.toList)
  calls : h'.calls = growAll ("", "", "") slot h.calls (es.flatMap Event.calls)
  finished : h'.finished = (h.finished || done || !(es.filterMap Event.reason).isEmpty)
  atLimit : h'.atLimit =
    (es.filterMap Event.reason).foldl (fun _ reason => decide (reason = "length")) h.atLimit
  deltas : wordsOf h'.deltas = wordsOf h.deltas ++ es.flatMap (·.words.toList)

section Hearing

variable {P : JsonReader} {h h' h'' : Heard} {e : Event} {es : List Event} {done : Bool}
  {event : Json} {lines : List (Bool × String)}

theorem piece_calls (g : Gathered) (tc : Json) : g.piece tc =
    { g with calls := growAt ("", "", "") g.calls (pieceOf tc).1 (slot · (pieceOf tc).2) } :=
  rfl

theorem pieces_calls (g : Gathered) (tcs : List Json) : tcs.foldl Gathered.piece g =
    { g with calls := growAll ("", "", "") slot g.calls (tcs.map pieceOf) } := by
  induction tcs generalizing g with
  | nil => rfl
  | cons tc tcs ih =>
    rw [List.foldl_cons, ih, piece_calls]
    rfl

theorem wordsOf_passed_words (piece : String) : wordsOf (passed .words piece) = piece.toList := by
  rw [passed]
  split
  · rename_i h
    rw [h]
    rfl
  · exact wordsOf_words _

theorem wordsOf_passed_thinking (piece : String) : wordsOf (passed .thinking piece) = [] := by
  rw [passed]
  split <;> rfl

/-- **One event** adds what it says. -/
theorem Heard.event_after (h : Heard) (herror : (event.get? "error").isSome = false) :
    ∃ h', h.event event = .ok h' ∧ h.After [eventOf event] false h' := by
  rw [Heard.event, Gathered.event, herror, if_neg Bool.false_ne_true]
  cases hchoice : (event.atKey "choices").first with
  | none =>
    rw [eventOf, hchoice]
    dsimp only
    split <;> exact ⟨_, rfl, by constructor <;> simp [growAll]⟩
  | some choice =>
    rw [eventOf, hchoice]
    dsimp only
    rw [pieces_calls]
    cases hreason : (choice.atKey "finish_reason").asStr with
    | none =>
      dsimp only
      split <;> exact ⟨_, rfl, by
        constructor <;> simp [growAll, wordsOf_passed_words, wordsOf_passed_thinking]⟩
    | some reason =>
      dsimp only
      split <;> exact ⟨_, rfl, by
        constructor <;> simp [growAll, wordsOf_passed_words, wordsOf_passed_thinking]⟩

theorem Heard.After.trans (first : h.After [e] false h') (rest : h'.After es done h'') :
    h.After (e :: es) done h'' := by
  constructor
  · rw [rest.text, first.text]
    simp
  · rw [rest.reasoning, first.reasoning]
    simp
  · rw [rest.calls, first.calls, ← growAll_append]
    simp
  · have hsplit : (e :: es).filterMap Event.reason =
        [e].filterMap Event.reason ++ es.filterMap Event.reason := by
      rw [← List.filterMap_append, List.singleton_append]
    have hempty (l l' : List String) : (l ++ l').isEmpty = (l.isEmpty && l'.isEmpty) := by
      cases l <;> rfl
    rw [rest.finished, first.finished, hsplit, hempty]
    cases h.finished <;> cases done <;> simp [Bool.not_and]
  · rw [rest.atLimit, first.atLimit, ← List.foldl_append, ← List.filterMap_append]
    rfl
  · rw [rest.deltas, first.deltas]
    simp

/-- **A stream** adds what its events say. -/
theorem Lines.hear (hlines : Lines P lines es done) (h : Heard) :
    ∃ h', P.hear h lines = .ok h' ∧ h.After es done h' := by
  induction hlines generalizing h with
  | nil => exact ⟨h, rfl, by constructor <;> simp [growAll]⟩
  | skip hline _ ih =>
    obtain ⟨h', hhear, hafter⟩ := ih h
    refine ⟨h', ?_, hafter⟩
    rw [JsonReader.hear, if_neg Bool.false_ne_true, hline]
    exact hhear
  | done hline hdone =>
    refine ⟨{ h with finished := true }, ?_, by constructor <;> simp [growAll]⟩
    rw [JsonReader.hear, if_neg Bool.false_ne_true, hline]
    exact if_pos hdone
  | event hline hdone hevent herror _ ih =>
    obtain ⟨h', hstep, hfirst⟩ := h.event_after herror
    obtain ⟨h'', hhear, hrest⟩ := ih h'
    refine ⟨h'', ?_, hfirst.trans hrest⟩
    rw [JsonReader.hear, if_neg Bool.false_ne_true, hline]
    dsimp only
    rw [if_neg hdone, hevent]
    dsimp only
    rw [hstep]
    exact hhear

end Hearing

/-! ### Read alike -/

/-- What a call's place holds in the end. -/
@[grind =]
def held (c : FinishedCall) : String × String × String :=
  (c.id.getD "", c.name, c.arguments.getD "")

section Agreeing

variable {P : JsonReader} {r : FinishedReply} {c : FinishedCall} {es : List Event}
  {ps : List CallPiece} {res choice : Json} {lines : List (Bool × String)} {done : Bool}

theorem foldl_slot_name (ps : List CallPiece) (s : String × String × String) :
    (ps.foldl slot s).2.1.toList = s.2.1.toList ++ ps.flatMap (·.name.toList) := by
  induction ps generalizing s with
  | nil => simp
  | cons p ps ih =>
    rw [List.foldl_cons, ih, slot]
    simp

theorem foldl_slot_arguments (ps : List CallPiece) (s : String × String × String) :
    (ps.foldl slot s).2.2.toList = s.2.2.toList ++ ps.flatMap (·.arguments.toList) := by
  induction ps generalizing s with
  | nil => simp
  | cons p ps ih =>
    rw [List.foldl_cons, ih, slot]
    simp

/-- An id that some pieces have, and no other, is held in the end. -/
theorem foldl_slot_id {id : String} (hid : ∀ p ∈ ps, p.id = none ∨ p.id = some id)
    (s : String × String × String) (h : s.1 = id ∨ ∃ p ∈ ps, p.id = some id) :
    (ps.foldl slot s).1 = id := by
  induction ps generalizing s with
  | nil =>
    rcases h with h | ⟨p, hp, -⟩
    · exact h
    · cases hp
  | cons p ps ih =>
    refine ih (fun q hq => hid q (List.mem_cons_of_mem _ hq)) _ ?_
    rcases hid p List.mem_cons_self with hp | hp
    · rcases h with h | ⟨q, hq, hqid⟩
      · exact .inl (by rw [slot, hp]; exact h)
      · rcases List.mem_cons.mp hq with rfl | hq
        · rw [hp] at hqid
          cases hqid
        · exact .inr ⟨q, hq, hqid⟩
    · exact .inl (by rw [slot, hp]; rfl)

/-- No id is held where no piece has one. -/
theorem foldl_slot_none (hid : ∀ p ∈ ps, p.id = none) (s : String × String × String) :
    (ps.foldl slot s).1 = s.1 := by
  induction ps generalizing s with
  | nil => rfl
  | cons p ps ih =>
    rw [List.foldl_cons, ih fun q hq => hid q (List.mem_cons_of_mem _ hq), slot,
      hid p List.mem_cons_self]
    rfl

/-- **A call's pieces** come together to the call. -/
theorem CutCall.held (h : CutCall c ps) : ps.foldl slot ("", "", "") = held c := by
  refine Prod.ext ?_ (Prod.ext (String.toList_injective ?_) (String.toList_injective ?_))
  · cases hid : c.id with
    | none =>
      rw [foldl_slot_none fun p hp => (h.id p hp).elim (fun heq => heq) fun heq => heq.trans hid]
      simp [JsonReader.held, hid]
    | some id =>
      have hpieces : ∀ p ∈ ps, p.id = none ∨ p.id = some id := fun p hp => hid ▸ h.id p hp
      obtain ⟨p, hp, hpid⟩ := h.given (by rw [hid]; rfl)
      rw [foldl_slot_id hpieces _ (.inr ⟨p, hp, hpid.trans hid⟩)]
      simp [JsonReader.held, hid]
  · rw [foldl_slot_name, h.name]
    simp [JsonReader.held]
  · rw [foldl_slot_arguments, h.arguments]
    simp [JsonReader.held]

/-- **The calls** that a stream gathers are the reply's, in the order of their indexes. -/
theorem Cut.gathered (h : Cut r es) (hnames : ∀ c ∈ r.calls, c.name ≠ "") :
    growAll ("", "", "") slot [] (es.flatMap Event.calls) = r.calls.map held := by
  have hplace : ∀ i (hi : i < r.calls.length),
      (growAll ("", "", "") slot [] (es.flatMap Event.calls)).getD i ("", "", "") =
        held r.calls[i] := by
    intro i hi
    rw [getD_growAll, List.getD_nil]
    exact (h.calls i hi).held
  have hlength : (growAll ("", "", "") slot [] (es.flatMap Event.calls)).length =
      r.calls.length := by
    refine Nat.le_antisymm (Nat.le_of_not_lt fun hlt => ?_) (Nat.le_of_not_lt fun hlt => ?_)
    · rcases lt_length_growAll.mp hlt with hlt | ⟨p, hp, hle⟩
      · cases hlt
      · exact absurd (h.within p hp) (Nat.not_lt.mpr hle)
    · -- a call whose name is not empty has a piece
      have hget := hplace _ hlt
      rw [List.getD_eq_default _ _ le_rfl] at hget
      exact hnames _ (List.getElem_mem hlt) (congrArg (·.2.1) hget).symm
  refine List.ext_getElem (by rw [hlength, List.length_map]) fun i hi hi' => ?_
  rw [List.length_map] at hi'
  rw [List.getElem_map, ← hplace i hi', List.getD_eq_getElem _ _ hi]

/-- A call at its place, as a stream's reader gives it. -/
def streamedCall (P : JsonReader) (c : FinishedCall × ℕ) : ProposedCall :=
  ⟨if c.1.id.getD "" = "" then s!"call_{c.2}" else c.1.id.getD "", c.1.name.replace "__" ".",
    (P.fromStr (c.1.arguments.getD "").toList).getD (.obj [])⟩

/-- A call at its place, as a whole reply's reader gives it. -/
def wholeCall (P : JsonReader) (c : FinishedCall × ℕ) : ProposedCall :=
  ⟨c.1.id.getD s!"call_{c.2}", c.1.name.replace "__" ".",
    (P.fromStr (c.1.arguments.getD "\x7b\x7d").toList).getD (.obj [])⟩

theorem fromStr_nil (P : JsonReader) : P.fromStr [] = none := by
  rw [fromStr]
  cases hnext : P.next [] with
  | none => rfl
  | some next =>
    obtain ⟨taken, htaken, hne⟩ := P.used _ _ _ hnext
    exact absurd (List.append_eq_nil_iff.mp htaken.symm).1 hne

/-- **A call is read alike** unless its id is the empty text. -/
theorem streamedCall_eq_iff (hempty : P.fromStr "\x7b\x7d".toList = some (.obj []))
    (c : FinishedCall × ℕ) : P.streamedCall c = P.wholeCall c ↔ c.1.id ≠ some "" := by
  obtain ⟨⟨id, name, arguments⟩, i⟩ := c
  have hparams : (P.fromStr (arguments.getD "").toList).getD (.obj []) =
      (P.fromStr (arguments.getD "\x7b\x7d").toList).getD (.obj []) := by
    cases arguments with
    | none =>
      change (P.fromStr []).getD (.obj []) = (P.fromStr "\x7b\x7d".toList).getD (.obj [])
      rw [fromStr_nil, hempty]
      rfl
    | some arguments => rfl
  simp only [streamedCall, wholeCall, ProposedCall.mk.injEq, hparams, and_true]
  cases id with
  | none => simp
  | some id =>
    by_cases hid : id = ""
    · subst hid
      simp
    · simp [hid]

theorem engine_eq {g : Gathered} (hcalls : g.calls = r.calls.map held)
    (hnames : ∀ c ∈ r.calls, c.name ≠ "") :
    g.engine P = r.calls.zipIdx.map (P.streamedCall ·) := by
  have hkept : ∀ c ∈ (r.calls.map held).zipIdx, decide (c.1.2.1 ≠ "") = true := by
    intro c hc
    rw [List.zipIdx_map] at hc
    obtain ⟨c', hc', rfl⟩ := List.mem_map.mp hc
    exact decide_eq_true (hnames _ (List.fst_mem_of_mem_zipIdx hc'))
  rw [Gathered.engine, hcalls, List.filter_eq_self.mpr hkept, List.zipIdx_map, List.map_map]
  rfl

/-- Calls in a reply, read from one place on. -/
theorem wholeCalls_from {calls : List FinishedCall} {tcs : List Json}
    (h : List.Forall₂ SaysCall calls tcs) (k : ℕ) :
    (tcs.zipIdx k).map (fun (c, i) =>
      (⟨((c.atKey "id").asStr).getD s!"call_{i}",
        ((((c.atKey "function").atKey "name").asStr).getD "").replace "__" ".",
        (P.fromStr ((((c.atKey "function").atKey "arguments").asStr).getD
          "\x7b\x7d").toList).getD (.obj [])⟩ : ProposedCall)) =
      (calls.zipIdx k).map (P.wholeCall ·) := by
  induction h generalizing k with
  | nil => rfl
  | cons hcall _ ih =>
    rw [List.zipIdx_cons, List.zipIdx_cons, List.map_cons, List.map_cons, ih]
    dsimp only
    rw [hcall.id, hcall.name, hcall.arguments]
    rfl

theorem engineCalls_eq (h : SaysWhole r res choice) :
    P.engineCalls (choice.atKey "message") = r.calls.zipIdx.map (P.wholeCall ·) := by
  rw [engineCalls]
  exact wholeCalls_from h.calls 0

/-- The calls of two readings are the same when those of the engine are. -/
theorem replyOf_calls_eq_iff {text : String} {calls calls' : List ProposedCall}
    {tokens tokens' : ℕ} {limit limit' : Bool} (hlength : calls.length = calls'.length) :
    (P.replyOf text calls tokens limit).calls = (P.replyOf text calls' tokens' limit').calls ↔
      calls = calls' := by
  cases calls with
  | nil =>
    cases calls' with
    | nil => simp [replyOf]
    | cons c calls' => cases hlength
  | cons c calls =>
    cases calls' with
    | nil => cases hlength
    | cons c' calls' => exact Iff.rfl

/-- **What is read of a stream.** -/
theorem Streams.readStream (hnames : ∀ c ∈ r.calls, c.name ≠ "") (h : P.Streams r lines) :
    ∃ tokens deltas, P.readStream lines false = .ok ⟨P.replyOf r.text
      (r.calls.zipIdx.map (P.streamedCall ·)) tokens (decide (r.reason = some "length")),
      r.thinking, deltas⟩ ∧ wordsOf deltas = r.text.toList := by
  obtain ⟨es, done, hlines, hcut, hfinished⟩ := h
  obtain ⟨h, hhear, hafter⟩ := hlines.hear {}
  have htext : h.text = r.text := String.toList_injective (by
    rw [hafter.text, hcut.words]
    rfl)
  have hreasoning : h.reasoning = r.thinking := String.toList_injective (by
    rw [hafter.reasoning, hcut.thinking]
    rfl)
  have hlimit : h.atLimit = decide (r.reason = some "length") := by
    rw [hafter.atLimit, hcut.reason]
    cases r.reason <;> simp
  have hdone : h.finished = true := by
    rw [hafter.finished, hcut.reason]
    rcases hfinished with rfl | hreason
    · simp
    · obtain ⟨reason, hreason⟩ := Option.isSome_iff_exists.mp hreason
      simp [hreason]
  have hcalls : h.calls = r.calls.map held := by
    rw [hafter.calls]
    exact hcut.gathered hnames
  refine ⟨h.completionTokens, h.deltas, ?_, ?_⟩
  · rw [JsonReader.readStream, hhear]
    dsimp only
    rw [if_neg Bool.false_ne_true, hdone, if_neg (by simp), engine_eq hcalls hnames, htext,
      hreasoning, hlimit]
  · rw [hafter.deltas, hcut.words]
    rfl

/-- **What is read of a whole reply.** -/
theorem SaysWhole.readWhole (h : SaysWhole r res choice) :
    ∃ tokens, P.readWhole res = .ok ⟨P.replyOf r.text
      (r.calls.zipIdx.map (P.wholeCall ·)) tokens (decide (r.reason = some "length")), r.thinking,
      []⟩ := by
  refine ⟨(((res.atKey "usage").atKey "completion_tokens").asU64).getD 0, ?_⟩
  rw [JsonReader.readWhole, parseOpenaiReply, h.error, if_neg Bool.false_ne_true, h.chosen]
  dsimp only [Option.getD_some]
  rw [h.text, engineCalls_eq h, h.thinking, h.reason]

/-- **The calls are read alike** exactly when none of them has the empty text for an id. -/
theorem calls_eq_iff (hempty : P.fromStr "\x7b\x7d".toList = some (.obj [])) {text : String}
    {tokens tokens' : ℕ} {limit limit' : Bool} :
    (P.replyOf text (r.calls.zipIdx.map (P.streamedCall ·)) tokens limit).calls =
      (P.replyOf text (r.calls.zipIdx.map (P.wholeCall ·)) tokens' limit').calls ↔
    ∀ c ∈ r.calls, c.id ≠ some "" := by
  rw [replyOf_calls_eq_iff (by simp), List.map_inj_left]
  simp only [streamedCall_eq_iff hempty]
  constructor
  · intro hall c hc
    obtain ⟨i, hi, rfl⟩ := List.getElem_of_mem hc
    exact hall (r.calls[i], i) (List.mk_mem_zipIdx_iff_getElem?.mpr (List.getElem?_eq_getElem hi))
  · exact fun hall c hc => hall _ (List.fst_mem_of_mem_zipIdx hc)

/-- **A reply is read alike** from any stream of it, exactly when none of its calls has the empty
text for an id. -/
theorem reads_alike_iff (hempty : P.fromStr "\x7b\x7d".toList = some (.obj []))
    (hnames : ∀ c ∈ r.calls, c.name ≠ "") (hwhole : SaysWhole r res choice)
    (hstreams : P.Streams r lines) :
    P.ReadsAlike lines res ↔ ∀ c ∈ r.calls, c.id ≠ some "" := by
  obtain ⟨tokens, deltas, hstream, hwords⟩ := hstreams.readStream hnames
  obtain ⟨tokens', hparse⟩ := hwhole.readWhole (P := P)
  constructor
  · rintro ⟨streamed, whole, hs, hw, -, -, hsame, -⟩
    rw [hstream] at hs
    rw [hparse] at hw
    cases hs
    cases hw
    exact (calls_eq_iff hempty).mp hsame
  · intro hids
    exact ⟨_, _, hstream, hparse, rfl, rfl, (calls_eq_iff hempty).mpr hids, rfl, hwords⟩

end Agreeing

/-! ### A reply of one call, in two pieces -/

/-- The text of an event that says something of the call. -/
def pieceText (said : List Char) : List Char :=
  '\x7b' :: '"' ::
    ("choices\":[\x7b\"delta\":\x7b\"tool_calls\":[\x7b\"index\":0,\"".toList ++ said ++ ['\x7d'])

/-- The call's id, its name and how its arguments begin. -/
def openText (id : String) : List Char :=
  pieceText ('i' :: ("d\":\"" ++ id ++
    "\",\"function\":\x7b\"name\":\"notes.list\",\"arguments\":\"\x7b\"\x7d\x7d]\x7d\x7d]").toList)

/-- How they end, and the reply with them. -/
def closeText : List Char :=
  pieceText ('f' :: ("unction\":\x7b\"arguments\":\"\x7d\"\x7d\x7d]\x7d," ++
    "\"finish_reason\":\"tool_calls\"\x7d]").toList)

def pieceEvent (said rest : List (String × Json)) : Json :=
  .obj [("choices", .arr [.obj
    (("delta", .obj [("tool_calls", .arr [.obj (("index", .num 0 0) :: said)])]) :: rest)])]

def openEvent (id : String) : Json :=
  pieceEvent [("id", .str id),
    ("function", .obj [("name", .str "notes.list"), ("arguments", .str "\x7b")])] []

def closeEvent : Json :=
  pieceEvent [("function", .obj [("arguments", .str "\x7d")])]
    [("finish_reason", .str "tool_calls")]

def listChoice (id : String) : Json :=
  .obj [("message", .obj [("content", .null), ("tool_calls", .arr [.obj [("id", .str id),
      ("function", .obj [("name", .str "notes.list"), ("arguments", .str "\x7b\x7d")])]])]),
    ("finish_reason", .str "tool_calls")]

def listReply (id : String) : FinishedReply :=
  ⟨"", "", [⟨some id, "notes.list", some "\x7b\x7d"⟩], some "tool_calls"⟩

/-- A reader of the two events' texts and of the empty object. -/
def listReader (id : String) : JsonReader where
  next t :=
    if t = openText id then some (openEvent id, [])
    else if t = closeText then some (closeEvent, [])
    else if t = ['\x7b', '\x7d'] then some (.obj [], [])
    else none
  used t v rest h := by
    split_ifs at h with hopen hclose hempty
    · cases h
      exact ⟨t, (List.append_nil _).symm, hopen ▸ List.cons_ne_nil _ _⟩
    · cases h
      exact ⟨t, (List.append_nil _).symm, hclose ▸ List.cons_ne_nil _ _⟩
    · cases h
      exact ⟨t, (List.append_nil _).symm, hempty ▸ List.cons_ne_nil _ _⟩

/-- A text as a line of a stream. -/
def dataLine (text : List Char) : Bool × String :=
  (false, String.ofList ("data:".toList ++ ' ' :: text))

def listLines (id : String) : List (Bool × String) :=
  [dataLine (openText id), dataLine closeText]

section List

variable {id : String} {said : List Char}

theorem empty_ne_pieceText : ['\x7b', '\x7d'] ≠ pieceText said := fun h =>
  absurd (List.cons.inj (List.cons.inj h).2).1 (by decide)

theorem closeText_ne_openText : closeText ≠ openText id := fun h => by
  have hsaid := List.append_cancel_left <|
    List.append_cancel_right (List.cons.inj (List.cons.inj h).2).2
  exact absurd (List.cons.inj hsaid).1 (by decide)

theorem listReader_empty : (listReader id).fromStr ['\x7b', '\x7d'] = some (.obj []) := by
  have hopen : ['\x7b', '\x7d'] ≠ openText id := empty_ne_pieceText
  have hclose : ['\x7b', '\x7d'] ≠ closeText := empty_ne_pieceText
  simp [fromStr, listReader, hopen, hclose]

theorem listReader_open : (listReader id).fromStr (openText id) = some (openEvent id) := by
  simp [fromStr, listReader]

theorem listReader_close : (listReader id).fromStr closeText = some closeEvent := by
  simp [fromStr, listReader, closeText_ne_openText]

theorem trimChars_pieceText : trimChars (' ' :: pieceText said) = pieceText said := by
  have hspace : isWhitespace ' ' = true := by
    decide
  have hopen : isWhitespace '\x7b' = false := by
    decide
  have hclose : isWhitespace '\x7d' = false := by
    decide
  simp [trimChars, pieceText, hspace, hopen, hclose]

theorem listReply_whole : SaysWhole (listReply id) (.obj [("choices", .arr [listChoice id])])
    (listChoice id) :=
  ⟨rfl, rfl, rfl, rfl, .cons ⟨rfl, rfl, rfl⟩ .nil, rfl⟩

/-- An event's line, read. -/
theorem lines_piece {P : JsonReader} {event : Json} {rest : List (Bool × String)} {es : List Event}
    {done : Bool} (hevent : P.fromStr (pieceText said) = some event)
    (herror : (event.get? "error").isSome = false) (h : Lines P rest es done) :
    Lines P (dataLine (pieceText said) :: rest) (eventOf event :: es) done := by
  have hline : (dataLine (pieceText said)).2.toList = "data:".toList ++ ' ' :: pieceText said :=
    String.toList_ofList
  have hdata : afterChars "data:".toList (dataLine (pieceText said)).2.toList =
      some (' ' :: pieceText said) := by
    rw [hline, afterChars, if_pos (List.isPrefixOf_iff_prefix.mpr (List.prefix_append _ _)),
      List.drop_left]
  refine .event hdata ?_ (trimChars_pieceText.symm ▸ hevent) herror h
  rw [trimChars_pieceText]
  exact fun h => absurd (List.cons.inj h).1 (by decide)

theorem listReply_cut : Cut (listReply id) [eventOf (openEvent id), eventOf closeEvent] := by
  have hcalls : [eventOf (openEvent id), eventOf closeEvent].flatMap Event.calls =
      [(0, ⟨some id, "notes.list", "\x7b"⟩), (0, ⟨none, "", "\x7d"⟩)] := rfl
  refine ⟨rfl, rfl, ?_, ?_, rfl⟩
  · rw [hcalls]
    simp [listReply]
  · intro i hi
    cases Nat.lt_one_iff.mp hi
    refine ⟨?_, fun _ => ⟨_, List.mem_cons_self, rfl⟩, ?_, ?_⟩
    · rw [hcalls]
      simp [piecesOf, listReply]
    · exact List.append_nil _
    · exact (by decide : "\x7b".toList ++ ("\x7d".toList ++ []) = "\x7b\x7d".toList)

theorem listReply_streams : (listReader id).Streams (listReply id) (listLines id) :=
  ⟨_, _, lines_piece listReader_open rfl (lines_piece listReader_close rfl .nil), listReply_cut,
    .inr rfl⟩

theorem listReply_named : ∀ c ∈ (listReply id).calls, c.name ≠ "" := by
  simp [listReply]

end List

theorem reads_alike_listed : (listReader "a").ReadsAlike (listLines "a")
    (.obj [("choices", .arr [listChoice "a"])]) :=
  (reads_alike_iff listReader_empty listReply_named listReply_whole listReply_streams).mpr
    (by simp [listReply])

/-- A call whose id is the empty text is given another by its stream. -/
theorem empty_id_named : ¬∀ (P : JsonReader) (r : FinishedReply) (res choice : Json)
    (lines : List (Bool × String)), P.fromStr "\x7b\x7d".toList = some (.obj []) →
    (∀ c ∈ r.calls, c.name ≠ "") → SaysWhole r res choice → P.Streams r lines →
    P.ReadsAlike lines res := by
  intro h
  obtain ⟨streamed, whole, hs, hw, -, -, hcalls, -⟩ := h (listReader "") (listReply "") _ _ _
    listReader_empty listReply_named listReply_whole listReply_streams
  obtain ⟨_, _, hstream, -⟩ := (@listReply_streams "").readStream listReply_named
  obtain ⟨_, hparse⟩ := (@listReply_whole "").readWhole (P := listReader "")
  rw [hstream] at hs
  rw [hparse] at hw
  cases hs
  cases hw
  exact (calls_eq_iff listReader_empty).mp hcalls _ List.mem_cons_self rfl

end JsonReader

end LocalSpace
