import LocalSpace.Library.Scans
import LocalSpace.Library.Slices
import LocalSpace.Replies

/-!
# What may be shown of an answer

`model.rs`: two loops go through an answer by its lines, passing over whole JSON values: the one that
finds a block in the shape of a call (`call_block`), and the one that says how much may be shown yet
(`safe_to_show`). The first measures where a value ends from the answer's beginning. The second takes
it from the value's own beginning, so that it may go back, and around for ever.
-/

namespace LocalSpace

open Library

/-- A JSON reader that tells a value that is cut short from what is no JSON. -/
structure StreamReader extends JsonReader where
  /-- What there is of a text may still become a value. -/
  eof : List Char → Bool

namespace StreamReader

open JsonReader

variable (P : StreamReader)

/-! ### May it be a call -/

inductive Maybe where
  | yes
  /-- Where a whole value ends; none where it is still open. -/
  | not (stop : Option ℕ)
  | undecided
  | words

/-- What an object that is cut short may be: its first key says. -/
def openObject : List Char → Maybe
  | '\x7b' :: inner =>
    match inner.dropWhile isWhitespace with
    | [] => .undecided
    | '"' :: quoted =>
      let key := quoted.takeWhile (· ≠ '"')
      if key.length < quoted.length ∧
          String.ofList key ∉ ["name", "arguments", "tool", "params"] then .not none
      else .undecided
    | _ => .words
  | _ => .undecided

/-- What a value that is cut short may be. -/
def openValue : List Char → Maybe
  | '[' :: inner =>
    match inner.dropWhile isWhitespace with
    | [] => .undecided
    | '\x7b' :: rest => openObject ('\x7b' :: rest)
    | _ => .words
  | rest => openObject rest

/-- `may_be_a_call`. -/
@[grind =]
def mayBeACall (rest : List Char) : Maybe :=
  match P.next rest with
  | some (v, after) =>
    if (P.callIn v).isSome then .yes else .not (some (byteLength rest - byteLength after))
  | none => if P.eof rest then openValue rest else .words

/-- `fenced_may_be_a_call`. -/
def fencedMayBeACall (rest : List Char) : Option Maybe :=
  match afterChars fence rest with
  | none => none
  | some inside =>
    let tag := inside.takeWhile (· ≠ '\n')
    if tag.length < inside.length then
      if jsonTag tag then
        let body := (inside.drop (tag.length + 1)).dropWhile isWhitespace
        match body.head? with
        | none => some .undecided
        | some c => some (if c = '\x7b' ∨ c = '[' then P.mayBeACall body else .words)
      else none
    else some .undecided

/-! ### The loops, turn by turn -/

/-- Where a loop is in the text. -/
structure Place where
  pos : ℕ
  inFence : Bool

/-- The spaces a line begins with. -/
def lead (rest : List Char) : List Char :=
  (rest.takeWhile (· ≠ '\n')).takeWhile spaces

/-- The text from a line's first word on. -/
@[grind =]
def content (rest : List Char) : List Char :=
  rest.drop (lead rest).length

/-- The first line of a text, without the spaces it begins with. -/
@[grind =]
def head (rest : List Char) : List Char :=
  (rest.takeWhile (· ≠ '\n')).dropWhile spaces

/-- On to the next line, where there is one. -/
@[grind =]
def onward {α : Type} (s : Place) (rest : List Char) (last : α) (inFence : Bool) : Round Place α :=
  let line := rest.takeWhile (· ≠ '\n')
  if line.length < rest.length then .next ⟨s.pos + byteLength line + 1, inFence⟩ else .stop last

/-- One turn of `safe_to_show`. -/
def safeTurn (text : List Char) (s : Place) : Round Place ℕ :=
  match sliceAt s.pos text with
  | none => .fail
  | some (_, rest) =>
    let all := byteLength text
    if s.inFence then onward s rest all (!fence.isPrefixOf (head rest))
    else if fence.isPrefixOf (head rest) then
      match P.fencedMayBeACall (content rest) with
      | none | some (.not _) | some .words => onward s rest all true
      | some _ => .stop s.pos
    else if (head rest).head? = some '\x7b' ∨ (head rest).head? = some '[' then
      match P.mayBeACall (content rest) with
      | .yes | .undecided => .stop s.pos
      | .not (some stop) => .next ⟨stop, false⟩
      | .not none => .stop all
      | .words => onward s rest all false
    else if ¬(rest.takeWhile (· ≠ '\n')).length < rest.length ∧
        ((head rest).isEmpty ∨ (head rest).head? = some '`') then .stop s.pos
    else onward s rest all false

/-- One turn of `call_block`. -/
def blockTurn (text : List Char) (s : Place) : Round Place (Option Found) :=
  match sliceAt s.pos text with
  | none => .fail
  | some (before, rest) =>
    if s.inFence then onward s rest none (!fence.isPrefixOf (head rest))
    else if fence.isPrefixOf (head rest) then
      match P.blockAt (content rest) with
      | some (tool, params, after) => .stop (some ⟨tool, params, before, after⟩)
      | none => onward s rest none true
    else if (head rest).head? = some '\x7b' ∨ (head rest).head? = some '[' then
      match P.next (content rest) with
      | some (v, after) =>
        match P.callIn v with
        | some (tool, params) => .stop (some ⟨tool, params, before, after⟩)
        | none =>
          .next ⟨s.pos + byteLength (lead rest) +
            (byteLength (content rest) - byteLength after), false⟩
      | none => onward s rest none false
    else onward s rest none false

/-- Where both loops begin. -/
@[grind =]
def start : Place :=
  ⟨0, false⟩

/-- Both loops end, their position moving forward inside the text, between two characters. -/
def ScansEnd (text : List Char) : Prop :=
  Scans (P.safeTurn text) Place.pos (Boundary text) start ∧
    Scans (P.blockTurn text) Place.pos (Boundary text) start

/-- A whole value of `n` bytes, that is no call, begins a line outside of a code fence. -/
def PassesOver (text : List Char) (s : Place) (n : ℕ) : Prop :=
  s.inFence = false ∧ ∃ before rest v after, text = before ++ rest ∧ s.pos = byteLength before ∧
    ((head rest).head? = some '\x7b' ∨ (head rest).head? = some '[') ∧
    P.next (content rest) = some (v, after) ∧ P.callIn v = none ∧
    n = byteLength (content rest) - byteLength after

section Turns

variable {P} {text before rest after : List Char} {s : Place} {n : ℕ} {v : Json} {α : Type} {last : α}
  {inFence : Bool}

theorem lead_append_content (rest : List Char) : lead rest ++ content rest = rest :=
  lead_split rest _ _

/-- A line's end, and the next line, in a text. -/
theorem line_boundary (before : List Char)
    (h : (rest.takeWhile (· ≠ '\n')).length < rest.length) :
    before ++ rest = (before ++ rest.takeWhile (· ≠ '\n') ++ ['\n']) ++
        rest.drop ((rest.takeWhile (· ≠ '\n')).length + 1) ∧
      byteLength (before ++ rest.takeWhile (· ≠ '\n') ++ ['\n']) =
        byteLength before + byteLength (rest.takeWhile (· ≠ '\n')) + 1 := by
  constructor
  · conv_lhs => rw [← line_split h]
    simp only [List.append_assoc]
  · rw [byteLength_append, byteLength_append]
    rfl

/-- Going on to the next line moves forward, inside. -/
theorem onward_advances (hpos : s.pos = byteLength before) :
    (∃ a, onward s rest last inFence = .stop a) ∨
      ∃ t, onward s rest last inFence = .next t ∧ s.pos < t.pos ∧
        Boundary (before ++ rest) t.pos := by
  rw [onward]
  split
  · rename_i hline
    obtain ⟨htext, hbytes⟩ := line_boundary before hline
    refine .inr ⟨_, rfl, ?_, ?_⟩
    · dsimp only
      omega
    · rw [htext]
      refine ⟨_, _, rfl, ?_⟩
      rw [hbytes, hpos]
  · exact .inl ⟨_, rfl⟩

theorem advances_of {step : Place → Round Place α}
    (h : (∃ a, step s = .stop a) ∨
      ∃ t, step s = .next t ∧ s.pos < t.pos ∧ Boundary text t.pos) :
    Advances step Place.pos (Boundary text) s := by
  rw [Advances]
  rcases h with ⟨a, ha⟩ | ⟨t, ht, hlt, hinside⟩
  · rw [ha]
    trivial
  · rw [ht]
    exact ⟨hlt, hinside⟩

/-- A first word that begins with a brace or a bracket is no fence. -/
theorem not_fence (h : (head rest).head? = some '\x7b' ∨ (head rest).head? = some '[') :
    fence.isPrefixOf (head rest) = false := by
  cases hhead : head rest with
  | nil => rfl
  | cons c l =>
    rw [hhead] at h
    rcases h with h | h
    · cases h
      rfl
    · cases h
      rfl

/-- A value that is cut short is no call yet, and has no end. -/
theorem openObject_cases (l : List Char) :
    openObject l = .words ∨ openObject l = .undecided ∨ openObject l = .not none := by
  unfold openObject
  split
  · split
    · exact .inr (.inl rfl)
    · dsimp only
      split
      · exact .inr (.inr rfl)
      · exact .inr (.inl rfl)
    · exact .inl rfl
  · exact .inr (.inl rfl)

theorem openValue_cases (l : List Char) :
    openValue l = .words ∨ openValue l = .undecided ∨ openValue l = .not none := by
  unfold openValue
  split
  · split
    · exact .inr (.inl rfl)
    · exact openObject_cases _
    · exact .inl rfl
  · exact openObject_cases _

/-- Where there is no whole value. -/
theorem mayBeACall_open (hnext : P.next rest = none) : P.mayBeACall rest = .words ∨
    P.mayBeACall rest = .undecided ∨ P.mayBeACall rest = .not none := by
  rw [mayBeACall, hnext]
  dsimp only
  split
  · exact openValue_cases rest
  · exact .inl rfl

/-- Where there is one. -/
theorem mayBeACall_whole (hnext : P.next rest = some (v, after)) : P.mayBeACall rest =
    if (P.callIn v).isSome then .yes else .not (some (byteLength rest - byteLength after)) := by
  rw [mayBeACall, hnext]

/-- **Where a value is passed over**, `safe_to_show` goes to as many bytes as the value has. -/
theorem safeTurn_of_passesOver (h : P.PassesOver text s n) :
    P.safeTurn text s = .next ⟨n, false⟩ := by
  obtain ⟨hfence, before, rest, v, after, rfl, hpos, hbegins, hnext, hcall, rfl⟩ := h
  rw [safeTurn, hpos, sliceAt_append]
  dsimp only
  rw [hfence, if_neg Bool.false_ne_true, not_fence hbegins, if_neg Bool.false_ne_true,
    if_pos hbegins, mayBeACall, hnext]
  dsimp only
  rw [hcall]
  rfl

/-- **Elsewhere** `safe_to_show` stops, or moves forward. -/
theorem safeTurn_advances (hinside : Boundary text s.pos) (h : ∀ n, ¬P.PassesOver text s n) :
    Advances (P.safeTurn text) Place.pos (Boundary text) s := by
  obtain ⟨before, rest, rfl, hpos⟩ := hinside
  have honward : ∀ inFence, P.safeTurn (before ++ rest) s =
      onward s rest (byteLength (before ++ rest)) inFence →
        Advances (P.safeTurn (before ++ rest)) Place.pos (Boundary (before ++ rest)) s := by
    intro inFence heq
    exact advances_of (heq ▸ onward_advances hpos)
  have hstop : ∀ a, P.safeTurn (before ++ rest) s = .stop a →
      Advances (P.safeTurn (before ++ rest)) Place.pos (Boundary (before ++ rest)) s :=
    fun a ha => advances_of (.inl ⟨a, ha⟩)
  have hturn : P.safeTurn (before ++ rest) s = P.safeTurn (before ++ rest) s := rfl
  conv_rhs at hturn => rw [safeTurn, hpos, sliceAt_append]
  dsimp only at hturn
  split at hturn
  · exact honward _ hturn
  · rename_i hfence
    split at hturn
    · split at hturn
      · exact honward _ hturn
      · exact honward _ hturn
      · exact honward _ hturn
      · exact hstop _ hturn
    · split at hturn
      · rename_i hbegins
        split at hturn
        · exact hstop _ hturn
        · exact hstop _ hturn
        · -- a whole value is passed over here
          rename_i stop hmaybe
          cases hnext : P.next (content rest) with
          | none =>
            obtain hopen | hopen | hopen := mayBeACall_open hnext
            · rw [hopen] at hmaybe
              cases hmaybe
            · rw [hopen] at hmaybe
              cases hmaybe
            · rw [hopen] at hmaybe
              cases hmaybe
          | some next =>
            obtain ⟨v, after⟩ := next
            rw [mayBeACall_whole hnext] at hmaybe
            split at hmaybe
            · cases hmaybe
            · rename_i hcall
              exact absurd ⟨by simpa using hfence, before, rest, v, after, rfl, hpos, hbegins, hnext,
                by simpa using hcall, rfl⟩ (h _)
        · exact hstop _ hturn
        · exact honward _ hturn
      · split at hturn
        · exact hstop _ hturn
        · exact honward _ hturn

/-- The reader of the whole text, from the next line on. -/
def fromNext (P : StreamReader) (before rest : List Char) (inFence : Bool) : Option Found :=
  let line := rest.takeWhile (· ≠ '\n')
  if line.length < rest.length then
    P.callBlockFrom (before ++ line ++ ['\n']) (rest.drop (line.length + 1)) inFence
  else none

theorem callBlockFrom_eq (P : StreamReader) (before rest : List Char) (inFence : Bool) :
    P.callBlockFrom before rest inFence =
      if inFence then fromNext P before rest (!fence.isPrefixOf (head rest))
      else if fence.isPrefixOf (head rest) then
        match P.blockAt (content rest) with
        | some (tool, params, after) => some ⟨tool, params, before, after⟩
        | none => fromNext P before rest true
      else if (head rest).head? = some '\x7b' ∨ (head rest).head? = some '[' then
        match P.next (content rest) with
        | some (v, after) =>
          match P.callIn v with
          | some (tool, params) => some ⟨tool, params, before, after⟩
          | none => P.callBlockFrom (before ++ rest.take (rest.length - after.length)) after false
        | none => fromNext P before rest false
      else fromNext P before rest false := by
  rw [callBlockFrom]
  simp only [dite_eq_ite, fromNext, head, content, lead]
  congr 1
  congr 1
  congr 1
  split
  · rename_i v after hnext
    cases hcall : P.callIn v with
    | none => simp only [hnext, hcall]
    | some call => simp only [hnext, hcall]
  · rename_i hnext
    rw [hnext]

/-- **A turn of `call_block`** stops with what the reader of the whole text finds, or comes to a
place further on from where it finds the same. -/
theorem blockTurn_cases (P : StreamReader) (before rest : List Char) (inFence : Bool) :
    P.blockTurn (before ++ rest) ⟨byteLength before, inFence⟩ =
      .stop (P.callBlockFrom before rest inFence) ∨
    ∃ before' rest' inFence', before ++ rest = before' ++ rest' ∧
      byteLength before < byteLength before' ∧
      P.blockTurn (before ++ rest) ⟨byteLength before, inFence⟩ =
        .next ⟨byteLength before', inFence'⟩ ∧
      P.callBlockFrom before rest inFence = P.callBlockFrom before' rest' inFence' := by
  have honward : ∀ f, onward ⟨byteLength before, inFence⟩ rest none f =
      .stop (fromNext P before rest f) ∨
      ∃ before' rest' inFence', before ++ rest = before' ++ rest' ∧
        byteLength before < byteLength before' ∧
        onward ⟨byteLength before, inFence⟩ rest (none : Option Found) f =
          .next ⟨byteLength before', inFence'⟩ ∧
        fromNext P before rest f = P.callBlockFrom before' rest' inFence' := by
    intro f
    rw [onward, fromNext]
    dsimp only
    split
    · rename_i hline
      obtain ⟨htext, hbytes⟩ := line_boundary before hline
      exact .inr ⟨_, _, f, htext, by omega, by rw [hbytes], rfl⟩
    · exact .inl rfl
  rw [callBlockFrom_eq, blockTurn, sliceAt_append]
  dsimp only
  split
  · exact honward _
  · split
    · cases hblock : P.blockAt (content rest) with
      | some found => exact .inl rfl
      | none => exact honward true
    · split
      · cases hnext : P.next (content rest) with
        | none => exact honward false
        | some next =>
          obtain ⟨v, after⟩ := next
          dsimp only
          cases hcall : P.callIn v with
          | some call => exact .inl rfl
          | none =>
            -- the value's end, from the beginning of the text
            obtain ⟨taken, htaken, hne⟩ := P.used _ _ _ hnext
            have hrest : rest = lead rest ++ taken ++ after := by
              conv_lhs => rw [← lead_append_content rest, htaken]
              rw [List.append_assoc]
            have htake : rest.take (rest.length - after.length) = lead rest ++ taken := by
              have hlength := congrArg List.length hrest
              rw [List.length_append] at hlength
              have hn : rest.length - after.length = (lead rest ++ taken).length := by
                omega
              rw [hn]
              exact (congrArg (List.take _) hrest).trans List.take_left
            have hpos := byteLength_pos hne
            refine .inr ⟨before ++ (lead rest ++ taken), after, false, ?_, ?_, ?_, ?_⟩
            · conv_lhs => rw [hrest]
              simp only [List.append_assoc]
            · simp only [byteLength_append]
              omega
            · rw [htaken]
              simp only [byteLength_append]
              congr 2
              omega
            · rw [htake]
      · exact honward false

/-- **`call_block`'s loop ends**, with what the reader of the whole text finds. -/
theorem blockTurn_scans (P : StreamReader) (text : List Char) :
    Scans (P.blockTurn text) Place.pos (Boundary text) start := by
  refine scans_of_advances (fun n h => h.le) (boundary_zero text) fun s _ hinside => ?_
  obtain ⟨before, rest, rfl, hpos⟩ := hinside
  obtain ⟨pos, inFence⟩ := s
  obtain rfl : pos = byteLength before := hpos
  rcases P.blockTurn_cases before rest inFence with hstop | ⟨before', rest', f, heq, hlt, hnext, -⟩
  · exact advances_of (.inl ⟨_, hstop⟩)
  · exact advances_of (.inr ⟨_, hnext, hlt, heq ▸ boundary_append before' rest'⟩)

/-- **The loops end exactly where** every value that `safe_to_show` passes over has more bytes than
there are before its line, and as many as a place between two characters. -/
theorem scansEnd_iff (P : StreamReader) (text : List Char) :
    P.ScansEnd text ↔ ∀ s, Reached (P.safeTurn text) start s →
      ∀ n, P.PassesOver text s n → s.pos < n ∧ Boundary text n := by
  constructor
  · rintro ⟨hsafe, -⟩ s hs n hover
    have hturn := safeTurn_of_passesOver hover
    exact ⟨hsafe.forward s _ hs hturn, hsafe.inside _ (hs.tail hturn)⟩
  · intro h
    refine ⟨scans_of_advances (fun n hn => hn.le) (boundary_zero text) fun s hs hinside => ?_,
      P.blockTurn_scans text⟩
    by_cases hover : ∃ n, P.PassesOver text s n
    · obtain ⟨n, hover⟩ := hover
      exact advances_of (.inr ⟨_, safeTurn_of_passesOver hover, h s hs n hover⟩)
    · exact safeTurn_advances hinside (not_exists.mp hover)

end Turns

/-! ### An answer that is gone around for ever -/

/-- A reader of the empty object. -/
def objectReader : StreamReader where
  next text := (afterChars ['\x7b', '\x7d'] text).map fun rest => (.obj [], rest)
  used text v rest h := by
    obtain ⟨rest', hrest, heq⟩ := Option.map_eq_some_iff.mp h
    cases heq
    exact ⟨_, afterChars_eq hrest, List.cons_ne_nil _ _⟩
  eof text := text = ['\x7b'] ∨ text.isEmpty

/-- An object on an answer's second line leads back to its first. -/
theorem gone_around : ¬∀ (P : StreamReader) (text : List Char), P.ScansEnd text := by
  intro h
  obtain ⟨hsafe, -⟩ := h objectReader "0123456789\n\x7b\x7d".toList
  have hfirst : objectReader.safeTurn "0123456789\n\x7b\x7d".toList start = .next ⟨11, false⟩ := by
    rfl
  have hsecond : objectReader.safeTurn "0123456789\n\x7b\x7d".toList ⟨11, false⟩ =
      .next ⟨2, false⟩ := by
    rfl
  have hback := hsafe.forward ⟨11, false⟩ ⟨2, false⟩ (Relation.ReflTransGen.refl.tail hfirst) hsecond
  exact absurd hback (by decide)

end StreamReader

end LocalSpace
