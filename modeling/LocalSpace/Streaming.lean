import Mathlib.Data.List.TakeWhile
import LocalSpace.Showing

/-!
# What of a reply is shown while it is written

`safe_to_show` (`model.rs`): how much of a reply being written may be shown yet, and `agent.rs`'s
delivery of it. `serde_json`'s streaming reader is a parameter that reads a text's prefixes as it
documents: a value that is there whole, a text cut short, or no value at all.

Where a value is passed over that does not begin the reply, the loop goes on from a wrong place.
Elsewhere (`Straight`) both scanners come to the same places of a reply (`placesFrom`), and nothing
of its call is shown exactly where every prefix that reaches into it is held at one of them
(`shown_before_iff`).
-/

namespace LocalSpace

open Library JsonReader

/-- What a streaming reader makes of a text: a first value and how much it takes up, a text cut
short, or no value. -/
inductive Read where
  | whole (v : Json) (length : Nat)
  | eof
  | bad

/-- A text begins with a list or an object. -/
@[grind =]
def Opens (text : List Char) : Prop :=
  text.head? = some '{' ∨ text.head? = some '['

instance (text : List Char) : Decidable (Opens text) :=
  inferInstanceAs (Decidable (_ ∨ _))

/-- `serde_json`'s streaming reader, as it reads a text and the text's prefixes: a list or an object
is whole once it closes, and cut short before. -/
structure PrefixReader where
  read : List Char → Read
  used : ∀ text v n, read text = .whole v n → 0 < n ∧ n ≤ text.length
  whole_take : ∀ text v n m, Opens text → read text = .whole v n → n ≤ m →
    read (text.take m) = .whole v n
  eof_take : ∀ text m, Opens text → read text = .eof → 0 < m → read (text.take m) = .eof
  bad_take : ∀ text m, Opens text → read text = .bad →
    read (text.take m) = .bad ∨ read (text.take m) = .eof

/-- What may be a call is held. -/
def StreamReader.Maybe.holds : StreamReader.Maybe → Bool
  | .yes | .undecided => true
  | _ => false

/-- A line, without its end. -/
@[grind =]
def lineOf (text : List Char) : List Char :=
  text.takeWhile (· ≠ '\n')

/-! ### Lines of a prefix -/

section Lines

variable {text : List Char} {k : Nat}

theorem dropWhile_take (p : Char → Bool) (text : List Char) (k : Nat) :
    (text.take k).dropWhile p = (text.dropWhile p).take (k - (text.takeWhile p).length) := by
  induction text generalizing k with
  | nil => simp
  | cons c rest ih =>
    cases k with
    | zero => simp
    | succ k =>
      by_cases hc : p c = true
      · rw [List.take_succ_cons, List.dropWhile_cons_of_pos hc, List.dropWhile_cons_of_pos hc,
          List.takeWhile_cons_of_pos hc, ih, List.length_cons, Nat.add_sub_add_right]
      · rw [List.take_succ_cons, List.dropWhile_cons_of_neg hc, List.dropWhile_cons_of_neg hc,
          List.takeWhile_cons_of_neg hc, List.length_nil, Nat.sub_zero, List.take_succ_cons]

theorem drop_takeWhile (p : Char → Bool) (text : List Char) :
    text.drop (text.takeWhile p).length = text.dropWhile p := by
  conv_lhs => rw [← List.takeWhile_append_dropWhile (p := p) (l := text)]
  rw [List.drop_append_of_le_length (by simp), List.drop_eq_nil_of_le (by simp), List.nil_append]

/-- A line that ends in what has come is there whole. -/
theorem lineOf_take (h : (lineOf text).length < k) : lineOf (text.take k) = lineOf text := by
  rw [lineOf, ← List.take_takeWhile]
  exact List.take_of_length_le (Nat.le_of_lt h)

theorem lineOf_eq_self (h : '\n' ∉ text) : lineOf text = text := by
  refine List.takeWhile_eq_self_iff.mpr fun c hc => decide_eq_true ?_
  rintro rfl
  exact h hc

/-- A line's leading spaces are the text's. -/
theorem lead_eq (text : List Char) : (lineOf text).takeWhile spaces = text.takeWhile spaces := by
  rw [lineOf, List.takeWhile_takeWhile]
  congr 1
  funext c
  by_cases hc : c = '\n'
  · subst hc
    rfl
  · simp [hc]

/-- A line's head is the line of what follows the spaces. -/
theorem head_eq (text : List Char) :
    (lineOf text).dropWhile spaces = lineOf (text.dropWhile spaces) := by
  induction text with
  | nil => rfl
  | cons c rest ih =>
    by_cases hc : spaces c = true
    · have hne : c ≠ '\n' := by
        rintro rfl
        exact absurd hc (by decide)
      have hline : lineOf (c :: rest) = c :: lineOf rest :=
        List.takeWhile_cons_of_pos (decide_eq_true hne)
      rw [hline, List.dropWhile_cons_of_pos hc, List.dropWhile_cons_of_pos hc, ih]
    · rw [List.dropWhile_cons_of_neg hc]
      by_cases hne : c = '\n'
      · subst hne
        rfl
      · have hline : lineOf (c :: rest) = c :: lineOf rest :=
          List.takeWhile_cons_of_pos (decide_eq_true hne)
        rw [hline, List.dropWhile_cons_of_neg hc]

theorem opens_lineOf (text : List Char) : Opens (lineOf text) ↔ Opens text := by
  cases text with
  | nil => rfl
  | cons c rest =>
    by_cases hne : c = '\n'
    · subst hne
      simp [Opens, lineOf]
    · have hline : lineOf (c :: rest) = c :: lineOf rest :=
        List.takeWhile_cons_of_pos (decide_eq_true hne)
      rw [hline]
      rfl

/-- A line begins with a fence exactly where the text from there does. -/
theorem fence_lineOf (text : List Char) :
    fence.isPrefixOf (lineOf text) = true ↔ fence <+: text := by
  rw [List.isPrefixOf_iff_prefix]
  refine ⟨fun h => h.trans (List.takeWhile_prefix _), ?_⟩
  rintro ⟨rest, rfl⟩
  exact ⟨lineOf rest, rfl⟩

theorem fence_take : fence <+: text.take k ↔ fence <+: text ∧ 3 ≤ k := by
  constructor
  · intro h
    have hlength := h.length_le
    rw [List.length_take, show fence.length = 3 from rfl] at hlength
    exact ⟨h.trans (List.take_prefix _ _), by omega⟩
  · rintro ⟨h, hk⟩
    exact List.prefix_take_iff.mpr ⟨h, hk⟩

theorem opens_take (hk : 0 < k) : Opens (text.take k) ↔ Opens text := by
  rw [Opens, Opens, List.head?_take, if_neg (by omega)]

theorem Opens.not_fence (h : Opens text) : ¬fence <+: text := by
  rintro ⟨rest, rfl⟩
  exact absurd h (by simp [Opens, fence])

theorem Opens.no_fence (h : Opens text) : ¬fence.isPrefixOf (lineOf text) = true := by
  rw [fence_lineOf]
  exact h.not_fence

theorem drop_lead (text : List Char) :
    text.drop ((lineOf text).takeWhile spaces).length = text.dropWhile spaces := by
  rw [lead_eq, drop_takeWhile]

end Lines

namespace PrefixReader

variable (R : PrefixReader)

/-- The reader as it is used on whole texts. -/
def whole : JsonReader where
  next text := match R.read text with
    | .whole v n => some (v, text.drop n)
    | _ => none
  used text v rest h := by
    split at h
    · next v' n hread =>
      obtain ⟨rfl, rfl⟩ := Prod.mk.inj (Option.some.inj h)
      obtain ⟨hpos, hle⟩ := R.used text v' n hread
      refine ⟨text.take n, (List.take_append_drop n text).symm, ?_⟩
      exact List.ne_nil_of_length_pos (by rw [List.length_take]; omega)
    · cases h

/-- The reader as it is used on replies being written. -/
def stream : StreamReader where
  toJsonReader := R.whole
  eof text := match R.read text with
    | .eof => true
    | _ => false

/-! ### The scanner of a reply being written -/

/-- How many characters of a text may be shown, from a place that is inside a code fence or not, each
value that is passed over measured from where it begins. -/
@[grind =]
def safeFrom (text : List Char) (inFence : Bool) : Nat :=
  let line := lineOf text
  let lead := line.takeWhile spaces
  let head := line.dropWhile spaces
  let onward (inFence : Bool) : Nat :=
    if h : line.length < text.length then
      line.length + 1 + safeFrom (text.drop (line.length + 1)) inFence
    else text.length
  if inFence then onward (!fence.isPrefixOf head)
  else if fence.isPrefixOf head then
    if ((R.stream.fencedMayBeACall (text.drop lead.length)).getD .words).holds then 0
    else onward true
  else if Opens head then
    match _hnext : R.whole.next (text.drop lead.length) with
    | some (v, rest) =>
      if (R.whole.callIn v).isSome then 0 else text.length - rest.length + safeFrom rest false
    | none =>
      match R.stream.mayBeACall (text.drop lead.length) with
      | .yes | .undecided => 0
      | .not _ => text.length
      | .words => onward false
  else if ¬line.length < text.length ∧ (head = [] ∨ head.head? = some '`') then 0
  else onward false
termination_by text.length
decreasing_by
  · rw [List.length_drop]
    omega
  · have hlt := R.whole.next_length _hnext
    rw [List.length_drop] at hlt
    omega

/-- `safe_to_show`, in no more than so many turns: how many bytes of a text may be shown. -/
@[grind =]
def safeToShow (fuel : Nat) (text : List Char) : Option Nat :=
  scan (R.stream.safeTurn text) fuel StreamReader.start

/-- A value that is passed over begins the text, so that its own bytes are where it ends. -/
def Straight (text : List Char) : Prop :=
  ∀ s, Reached (R.stream.safeTurn text) StreamReader.start s →
    ∀ n, R.stream.PassesOver text s n → s.pos = 0 ∧ Opens text

/-- `read_the_model`'s deltas: what is seen, what is shown, and whether the answer was stopped for
repeating itself. -/
@[grind =]
def deliver (fuel : Nat) (repeatingFrom : List Char → Option Nat) :
    List Char × List Char × Bool → List Char → Option (List Char × List Char × Bool)
  | (seen, shown, repeated), delta =>
    if repeated then some (seen, shown, true)
    else
      let seen := seen ++ delta
      if (repeatingFrom seen).isSome then some (seen, shown, true)
      else
        (R.safeToShow fuel seen).bind fun upto =>
          if byteLength shown < upto then
            (sliceAt upto seen).map fun p => (seen, shown ++ p.1.drop shown.length, false)
          else some (seen, shown, false)

/-- The words delivered of a reply that comes in pieces. -/
def delivered (fuel : Nat) (repeatingFrom : List Char → Option Nat) (pieces : List (List Char)) :
    Option (List Char) :=
  (pieces.foldlM (R.deliver fuel repeatingFrom) ([], [], false)).map fun r => r.2.1

/-! ### The places both scanners come to -/

/-- A place of a reply where a value begins a line, or a code fence does. -/
structure Place where
  fenced : Bool
  start : Nat
  rest : List Char

/-- Whether there may be a call at the place, when so many characters of the reply have come; it is
not decided before the place begins. -/
@[grind =]
def Place.maybe (p : Place) (m : Nat) : StreamReader.Maybe :=
  let part := p.rest.take (m - p.start)
  if p.fenced then
    if part.length < fence.length then .undecided
    else (R.stream.fencedMayBeACall part).getD .words
  else if part = [] then .undecided
  else R.stream.mayBeACall part

/-- The places a whole reply's scanner comes to, up to the call's. -/
@[grind =]
def placesFrom (start : Nat) (text : List Char) (inFence : Bool) : List Place :=
  let line := lineOf text
  let lead := line.takeWhile spaces
  let head := line.dropWhile spaces
  let onward (inFence : Bool) : List Place :=
    if h : line.length < text.length then
      placesFrom (start + line.length + 1) (text.drop (line.length + 1)) inFence
    else []
  if inFence then onward (!fence.isPrefixOf head)
  else if fence.isPrefixOf head then
    ⟨true, start + lead.length, text.drop lead.length⟩ ::
      match R.whole.blockAt (text.drop lead.length) with
      | some _ => []
      | none => onward true
  else if Opens head then
    ⟨false, start + lead.length, text.drop lead.length⟩ ::
      match _hnext : R.whole.next (text.drop lead.length) with
      | some (v, rest) =>
        match R.whole.callIn v with
        | some _ => []
        | none => placesFrom (start + (text.length - rest.length)) rest false
      | none => onward false
  else onward false
termination_by text.length
decreasing_by
  · rw [List.length_drop]
    omega
  · have hlt := R.whole.next_length _hnext
    rw [List.length_drop] at hlt
    omega

/-- What has come is held at the first place that it does not pass over: words, a whole value that
is no call, or a fence that holds none. -/
@[grind =]
def held (m : Nat) : List Place → Bool
  | [] => false
  | p :: rest => match p.maybe R m with
    | .yes | .undecided => true
    | .words | .not (some _) => held m rest
    | .not none => p.fenced && held m rest

/-- Whatever has come of the reply is held, once it reaches into the call. -/
def HeldBack (text : List Char) (found : Found) : Prop :=
  ∀ m, found.before.length < m → m ≤ text.length → R.held m (R.placesFrom 0 text false) = true

section Places

variable {R} {text : List Char} {start k m : Nat} {inFence : Bool}

/-! ### What the scanners make of a line -/

/-- The scanner goes on with the next line. -/
@[grind =]
def past (text : List Char) (inFence : Bool) : Nat :=
  if (lineOf text).length < text.length then
    (lineOf text).length + 1 + R.safeFrom (text.drop ((lineOf text).length + 1)) inFence
  else text.length

/-- The places after the line. -/
@[grind =]
def placesPast (start : Nat) (text : List Char) (inFence : Bool) : List Place :=
  if (lineOf text).length < text.length then
    R.placesFrom (start + (lineOf text).length + 1) (text.drop ((lineOf text).length + 1)) inFence
  else []

theorem past_take (hline : (lineOf text).length < text.length) (hk : (lineOf text).length < k) :
    past (R := R) (text.take k) inFence = (lineOf text).length + 1 +
      R.safeFrom ((text.drop ((lineOf text).length + 1)).take (k - ((lineOf text).length + 1)))
        inFence := by
  rw [past, lineOf_take hk, if_pos (by rw [List.length_take]; omega), List.drop_take]

theorem past_pos (h : text ≠ []) : 0 < past (R := R) text inFence := by
  have hpos := List.length_pos_of_ne_nil h
  rw [past]
  split
  · omega
  · exact hpos

theorem placesPast_eq (hline : (lineOf text).length < text.length) :
    placesPast (R := R) start text inFence =
      R.placesFrom (start + (lineOf text).length + 1) (text.drop ((lineOf text).length + 1))
        inFence := by
  rw [placesPast, if_pos hline]

theorem safeFrom_inside (text : List Char) :
    R.safeFrom text true =
      past (R := R) text (!fence.isPrefixOf ((lineOf text).dropWhile spaces)) := by
  rw [safeFrom, past]
  simp only [if_true, dite_eq_ite]

theorem placesFrom_inside (start : Nat) (text : List Char) :
    R.placesFrom start text true =
      placesPast (R := R) start text (!fence.isPrefixOf ((lineOf text).dropWhile spaces)) := by
  rw [placesFrom, placesPast]
  simp only [if_true, dite_eq_ite]

/-- A fence is held, or its inside is read on. -/
theorem safeFrom_fenced (h : fence <+: text.dropWhile spaces) :
    R.safeFrom text false =
      if ((R.stream.fencedMayBeACall (text.dropWhile spaces)).getD .words).holds then 0
      else past (R := R) text true := by
  rw [safeFrom, past]
  simp only [lead_eq, head_eq, drop_takeWhile, (fence_lineOf _).mpr h, Bool.false_eq_true, if_false,
    if_true, dite_eq_ite]

theorem placesFrom_fenced (start : Nat) (h : fence <+: text.dropWhile spaces) :
    R.placesFrom start text false =
      ⟨true, start + (text.takeWhile spaces).length, text.dropWhile spaces⟩ ::
        if (R.whole.blockAt (text.dropWhile spaces)).isSome then []
        else placesPast (R := R) start text true := by
  rw [placesFrom, placesPast]
  simp only [lead_eq, head_eq, drop_takeWhile, (fence_lineOf _).mpr h, Bool.false_eq_true, if_false,
    if_true, dite_eq_ite]
  cases R.whole.blockAt (text.dropWhile spaces) <;> rfl

section Value

variable (h : Opens (text.dropWhile spaces))
include h

theorem safeFrom_held (hmaybe : (R.stream.mayBeACall (text.dropWhile spaces)).holds = true) :
    R.safeFrom text false = 0 := by
  rw [safeFrom]
  simp only [lead_eq, head_eq, drop_takeWhile, Bool.false_eq_true, if_false,
    if_neg h.no_fence, if_pos ((opens_lineOf _).mpr h)]
  split
  · next v rest hnext =>
    rw [drop_lead] at hnext
    rw [StreamReader.mayBeACall, show R.stream.next = R.whole.next from rfl, hnext] at hmaybe
    dsimp only at hmaybe
    split at hmaybe
    · next hcall => exact if_pos hcall
    · cases hmaybe
  · split <;> first | rfl | (rename_i heq; rw [heq] at hmaybe; cases hmaybe)

/-- A whole value that is no call is passed over. -/
theorem safeFrom_value {v : Json} {rest : List Char}
    (hnext : R.whole.next (text.dropWhile spaces) = some (v, rest))
    (hcall : R.whole.callIn v = none) :
    R.safeFrom text false = text.length - rest.length + R.safeFrom rest false := by
  rw [safeFrom]
  simp only [lead_eq, head_eq, drop_takeWhile, Bool.false_eq_true, if_false,
    if_neg h.no_fence, if_pos ((opens_lineOf _).mpr h)]
  split <;> rename_i heq <;> rw [drop_lead, hnext] at heq <;> cases heq
  rw [hcall, Option.isSome_none, if_neg Bool.false_ne_true]

/-- A value still open that is no call is shown with all that follows. -/
theorem safeFrom_open (hnext : R.whole.next (text.dropWhile spaces) = none)
    (hmaybe : R.stream.mayBeACall (text.dropWhile spaces) = .not none) :
    R.safeFrom text false = text.length := by
  rw [safeFrom]
  simp only [lead_eq, head_eq, drop_takeWhile, Bool.false_eq_true, if_false,
    if_neg h.no_fence, if_pos ((opens_lineOf _).mpr h)]
  split <;> rename_i heq <;> rw [drop_lead, hnext] at heq <;> cases heq
  rw [hmaybe]

theorem safeFrom_unread (hnext : R.whole.next (text.dropWhile spaces) = none)
    (hmaybe : R.stream.mayBeACall (text.dropWhile spaces) = .words) :
    R.safeFrom text false = past (R := R) text false := by
  rw [safeFrom, past]
  simp only [lead_eq, head_eq, drop_takeWhile, Bool.false_eq_true, if_false,
    if_neg h.no_fence, if_pos ((opens_lineOf _).mpr h), dite_eq_ite]
  split <;> rename_i heq <;> rw [drop_lead, hnext] at heq <;> cases heq
  rw [hmaybe]

theorem placesFrom_call {v : Json} {rest : List Char}
    (hnext : R.whole.next (text.dropWhile spaces) = some (v, rest))
    (hcall : (R.whole.callIn v).isSome = true) :
    R.placesFrom start text false =
      [⟨false, start + (text.takeWhile spaces).length, text.dropWhile spaces⟩] := by
  obtain ⟨call, hcall⟩ := Option.isSome_iff_exists.mp hcall
  rw [placesFrom]
  simp only [lead_eq, head_eq, drop_takeWhile, Bool.false_eq_true, if_false,
    if_neg h.no_fence, if_pos ((opens_lineOf _).mpr h)]
  congr 1
  split <;> rename_i heq <;> rw [drop_lead, hnext] at heq <;> cases heq
  rw [hcall]

theorem placesFrom_value {v : Json} {rest : List Char}
    (hnext : R.whole.next (text.dropWhile spaces) = some (v, rest))
    (hcall : R.whole.callIn v = none) :
    R.placesFrom start text false =
      ⟨false, start + (text.takeWhile spaces).length, text.dropWhile spaces⟩ ::
        R.placesFrom (start + (text.length - rest.length)) rest false := by
  rw [placesFrom]
  simp only [lead_eq, head_eq, drop_takeWhile, Bool.false_eq_true, if_false,
    if_neg h.no_fence, if_pos ((opens_lineOf _).mpr h)]
  congr 1
  split <;> rename_i heq <;> rw [drop_lead, hnext] at heq <;> cases heq
  rw [hcall]

theorem placesFrom_unread (hnext : R.whole.next (text.dropWhile spaces) = none) :
    R.placesFrom start text false =
      ⟨false, start + (text.takeWhile spaces).length, text.dropWhile spaces⟩ ::
        placesPast (R := R) start text false := by
  rw [placesFrom, placesPast]
  simp only [lead_eq, head_eq, drop_takeWhile, Bool.false_eq_true, if_false,
    if_neg h.no_fence, if_pos ((opens_lineOf _).mpr h), dite_eq_ite]
  congr 1
  split
  · next v rest heq =>
    rw [drop_lead, hnext] at heq
    cases heq
  · rfl

end Value

section Plain

variable (hf : ¬fence <+: text.dropWhile spaces) (ho : ¬Opens (text.dropWhile spaces))
include hf ho

theorem safeFrom_plain : R.safeFrom text false =
    if ¬(lineOf text).length < text.length ∧ (lineOf (text.dropWhile spaces) = [] ∨
      (lineOf (text.dropWhile spaces)).head? = some '`') then 0
    else past (R := R) text false := by
  rw [← fence_lineOf] at hf
  rw [← opens_lineOf] at ho
  rw [safeFrom, past]
  simp only [head_eq, Bool.false_eq_true, if_false, if_neg hf, if_neg ho, dite_eq_ite]

theorem placesFrom_plain (start : Nat) :
    R.placesFrom start text false = placesPast (R := R) start text false := by
  rw [← fence_lineOf] at hf
  rw [← opens_lineOf] at ho
  rw [placesFrom, placesPast]
  simp only [head_eq, Bool.false_eq_true, if_false, if_neg hf, if_neg ho, dite_eq_ite]

end Plain

/-! ### How the whole reply's scanner comes to its call -/

/-- The ways a scanner goes from a place to the call it finds. -/
inductive Finds (P : JsonReader) (found : Found) : List Char → List Char → Bool → Prop
  | inside {before text} (hline : (lineOf text).length < text.length)
      (hrest : Finds P found (before ++ lineOf text ++ ['\n'])
        (text.drop ((lineOf text).length + 1))
        (!fence.isPrefixOf ((lineOf text).dropWhile spaces))) : Finds P found before text true
  | fenced {before text} (hfence : fence <+: text.dropWhile spaces)
      (hnone : P.blockAt (text.dropWhile spaces) = none)
      (hline : (lineOf text).length < text.length)
      (hrest : Finds P found (before ++ lineOf text ++ ['\n'])
        (text.drop ((lineOf text).length + 1)) true) : Finds P found before text false
  | block {before text} (hfence : fence <+: text.dropWhile spaces)
      (hblock : (P.blockAt (text.dropWhile spaces)).isSome = true)
      (hbefore : found.before = before) : Finds P found before text false
  | call {before text v rest} (hopens : Opens (text.dropWhile spaces))
      (hnext : P.next (text.dropWhile spaces) = some (v, rest))
      (hcall : (P.callIn v).isSome = true) (hbefore : found.before = before) :
      Finds P found before text false
  | value {before text v rest} (hopens : Opens (text.dropWhile spaces))
      (hnext : P.next (text.dropWhile spaces) = some (v, rest)) (hcall : P.callIn v = none)
      (hrest : Finds P found (before ++ text.take (text.length - rest.length)) rest false) :
      Finds P found before text false
  | unread {before text} (hopens : Opens (text.dropWhile spaces))
      (hnext : P.next (text.dropWhile spaces) = none)
      (hline : (lineOf text).length < text.length)
      (hrest : Finds P found (before ++ lineOf text ++ ['\n'])
        (text.drop ((lineOf text).length + 1)) false) : Finds P found before text false
  | words {before text} (hf : ¬fence <+: text.dropWhile spaces)
      (ho : ¬Opens (text.dropWhile spaces)) (hline : (lineOf text).length < text.length)
      (hrest : Finds P found (before ++ lineOf text ++ ['\n'])
        (text.drop ((lineOf text).length + 1)) false) : Finds P found before text false

theorem finds_of_callBlockFrom {P : JsonReader} {before : List Char} {found : Found}
    (h : P.callBlockFrom before text inFence = some found) : Finds P found before text inFence := by
  induction hn : text.length using Nat.strong_induction_on generalizing before text inFence with
  | _ n ih =>
    subst hn
    have hdrop := drop_lead text
    have hfence := fence_lineOf (text.dropWhile spaces)
    have hopens := opens_lineOf (text.dropWhile spaces)
    rw [← head_eq] at hfence hopens
    rw [callBlockFrom] at h
    dsimp only at h
    -- the search goes on with the next line
    have honward : ∀ inFence : Bool,
        (if _ : (lineOf text).length < text.length then
          P.callBlockFrom (before ++ lineOf text ++ ['\n'])
            (text.drop ((lineOf text).length + 1)) inFence
        else none) = some found →
          (lineOf text).length < text.length ∧ Finds P found (before ++ lineOf text ++ ['\n'])
            (text.drop ((lineOf text).length + 1)) inFence := by
      intro inFence h
      split at h
      · next hlt =>
        exact ⟨hlt, ih _ (by rw [List.length_drop]; omega) h rfl⟩
      · cases h
    split at h
    · next hin =>
      subst hin
      obtain ⟨hline, hrest⟩ := honward _ h
      exact .inside hline hrest
    · next hout =>
      rw [Bool.not_eq_true] at hout
      subst hout
      split at h
      · next hhead =>
        have hfenced := hfence.mp hhead
        split at h
        · next tool params after hat =>
          rw [Option.some.injEq] at h
          refine .block hfenced ?_ (by rw [← h])
          rw [← hdrop]
          exact Option.isSome_of_eq_some hat
        · next hat =>
          obtain ⟨hline, hrest⟩ := honward _ h
          exact .fenced hfenced (hdrop ▸ hat) hline hrest
      · next hhead =>
        have hplain : ¬fence <+: text.dropWhile spaces := fun hf => hhead (hfence.mpr hf)
        split at h
        · next hbracket =>
          have hvalue := hopens.mp hbracket
          split at h
          · next v rest hnext =>
            split at h
            · next tool params hcall =>
              rw [Option.some.injEq] at h
              exact .call hvalue (hdrop ▸ hnext) (Option.isSome_of_eq_some hcall) (by rw [← h])
            · next hcall =>
              have hshort : rest.length < text.length := by
                have hlt := P.next_length hnext
                rw [List.length_drop] at hlt
                omega
              exact .value hvalue (hdrop ▸ hnext) hcall (ih _ hshort h rfl)
          · next hnext =>
            obtain ⟨hline, hrest⟩ := honward _ h
            exact .unread hvalue (hdrop ▸ hnext) hline hrest
        · next hbracket =>
          obtain ⟨hline, hrest⟩ := honward _ h
          exact .words hplain (fun ho => hbracket (hopens.mpr ho)) hline hrest

/-- What comes before the call begins with what came before the place. -/
theorem Finds.before_le {P : JsonReader} {found : Found} {before : List Char}
    (h : Finds P found before text inFence) : before.length ≤ found.before.length := by
  induction h with
  | inside _ _ ih => simp only [List.length_append] at ih; omega
  | fenced _ _ _ _ ih => simp only [List.length_append] at ih; omega
  | block _ _ hbefore => rw [hbefore]
  | call _ _ _ hbefore => rw [hbefore]
  | value _ _ _ _ ih => simp only [List.length_append] at ih; omega
  | unread _ _ _ _ ih => simp only [List.length_append] at ih; omega
  | words _ _ _ _ ih => simp only [List.length_append] at ih; omega

/-! ### Where a prefix is held -/

theorem whole_next {v : Json} {rest : List Char} (h : R.whole.next text = some (v, rest)) :
    ∃ n, R.read text = .whole v n ∧ rest = text.drop n := by
  dsimp only [whole] at h
  split at h
  · next v' n hread =>
    obtain ⟨rfl, rfl⟩ := Prod.mk.inj (Option.some.inj h)
    exact ⟨n, hread, rfl⟩
  · cases h

theorem whole_next_none (h : R.whole.next text = none) (v : Json) (n : Nat) :
    R.read text ≠ .whole v n := by
  intro hread
  dsimp only [whole] at h
  rw [hread] at h
  cases h

/-- Whatever has come of a text that holds no whole value holds none either. -/
theorem next_take (hopens : Opens text) (hnext : R.whole.next text = none) (hk : 0 < k) :
    R.whole.next (text.take k) = none := by
  have hread : R.read (text.take k) = .bad ∨ R.read (text.take k) = .eof := by
    cases htext : R.read text with
    | whole v n => exact absurd htext (whole_next_none hnext v n)
    | eof => exact .inr (R.eof_take text k hopens htext hk)
    | bad => exact R.bad_take text k hopens htext
  dsimp only [whole]
  obtain hbad | heof := hread
  · rw [hbad]
  · rw [heof]

theorem held_fenced {p : Place} (hfenced : p.fenced = true) (places : List Place) :
    R.held m (p :: places) = ((p.maybe R m).holds || R.held m places) := by
  rw [held]
  cases p.maybe R m with
  | not stop => cases stop <;> simp [StreamReader.Maybe.holds, hfenced]
  | _ => rfl

/-- A line that is passed over, in what has come as in the whole reply. -/
theorem past_iff {before : List Char} {shown : Nat}
    (hline : (lineOf text).length < text.length)
    (hle : before.length + (lineOf text).length + 1 ≤ shown) (hm : shown < m)
    (ih : before.length + (lineOf text).length + 1 +
        R.safeFrom ((text.drop ((lineOf text).length + 1)).take
          (m - (before.length + (lineOf text).length + 1))) inFence ≤ shown ↔
      R.held m (R.placesFrom (before.length + (lineOf text).length + 1)
        (text.drop ((lineOf text).length + 1)) inFence) = true) :
    before.length + past (R := R) (text.take (m - before.length)) inFence ≤ shown ↔
      R.held m (placesPast (R := R) before.length text inFence) = true := by
  have hsub : m - before.length - ((lineOf text).length + 1) =
      m - (before.length + (lineOf text).length + 1) := by omega
  rw [past_take hline (by omega), placesPast_eq hline, ← ih, hsub, ← Nat.add_assoc,
    ← Nat.add_assoc]

theorem lead_add (text : List Char) :
    (text.takeWhile spaces).length + (text.dropWhile spaces).length = text.length := by
  conv_rhs => rw [← List.takeWhile_append_dropWhile (p := spaces) (l := text)]
  rw [List.length_append]

theorem line_add (text : List Char) : (lineOf text).length =
    (text.takeWhile spaces).length + (lineOf (text.dropWhile spaces)).length := by
  rw [← head_eq, ← lead_eq, lead_add]

/-- What has come of a line after its spaces. -/
theorem part_take (text : List Char) (m k : ℕ) : (text.take (m - k)).dropWhile spaces =
    (text.dropWhile spaces).take (m - (k + (text.takeWhile spaces).length)) := by
  rw [dropWhile_take, Nat.sub_sub]

/-- A prefix that reaches into what may be a value looks at what has come of it. -/
theorem maybe_open {k : ℕ} (hopens : Opens (text.dropWhile spaces))
    (hk : k + (text.takeWhile spaces).length < m) :
    Opens ((text.take (m - k)).dropWhile spaces) ∧
      Place.maybe R ⟨false, k + (text.takeWhile spaces).length, text.dropWhile spaces⟩ m =
        R.stream.mayBeACall ((text.take (m - k)).dropWhile spaces) := by
  have ho : Opens ((text.take (m - k)).dropWhile spaces) := by
    rw [part_take, opens_take (Nat.sub_pos_of_lt hk)]
    exact hopens
  refine ⟨ho, ?_⟩
  rw [Place.maybe, if_neg Bool.false_ne_true, ← part_take, if_neg]
  intro hnil
  rw [hnil] at ho
  exact absurd ho (by decide)

/-- A value that is no call is passed over, in what has come as in the whole reply. -/
theorem value_iff {k shown n : ℕ} {v : Json} (hopens : Opens (text.dropWhile spaces))
    (hread : R.read (text.dropWhile spaces) = .whole v n)
    (hnext : R.whole.next (text.dropWhile spaces) = some (v, (text.dropWhile spaces).drop n))
    (hcall : R.whole.callIn v = none) (hle : k + ((text.takeWhile spaces).length + n) ≤ shown)
    (hm : shown < m)
    (ih : k + ((text.takeWhile spaces).length + n) + R.safeFrom (((text.dropWhile spaces).drop n).take
        (m - (k + ((text.takeWhile spaces).length + n)))) false ≤ shown ↔
      R.held m (R.placesFrom (k + ((text.takeWhile spaces).length + n))
        ((text.dropWhile spaces).drop n) false) = true) :
    k + R.safeFrom (text.take (m - k)) false ≤ shown ↔
      R.held m (R.placesFrom k text false) = true := by
  obtain ⟨hpos, hn⟩ := R.used _ v n hread
  have hadd := lead_add text
  obtain ⟨ho, hmaybe⟩ := maybe_open (R := R) (m := m) (k := k) hopens (by omega)
  have hpart := part_take text m k
  have hpassed : text.length - ((text.dropWhile spaces).drop n).length =
      (text.takeWhile spaces).length + n := by
    rw [List.length_drop]
    omega
  -- the value has come whole
  have hwhole : R.whole.next ((text.take (m - k)).dropWhile spaces) =
      some (v, ((text.take (m - k)).dropWhile spaces).drop n) := by
    rw [hpart]
    dsimp only [whole]
    rw [R.whole_take _ v n _ hopens hread (by omega)]
  have hnot := StreamReader.mayBeACall_whole (P := R.stream) hwhole
  rw [show R.stream.callIn v = _ from hcall, Option.isSome_none, if_neg Bool.false_ne_true] at hnot
  have hrest : ((text.take (m - k)).dropWhile spaces).drop n =
      ((text.dropWhile spaces).drop n).take (m - (k + ((text.takeWhile spaces).length + n))) := by
    rw [hpart, List.drop_take]
    congr 1
    omega
  have htaken : (text.take (m - k)).length - (((text.take (m - k)).dropWhile spaces).drop n).length =
      (text.takeWhile spaces).length + n := by
    rw [hrest]
    simp only [List.length_take, List.length_drop]
    omega
  rw [safeFrom_value ho hwhole hcall, htaken, hrest, placesFrom_value hopens hnext hcall, held,
    hmaybe, hnot, hpassed]
  dsimp only
  rw [← ih, Nat.add_assoc k]

/-- A prefix that reaches into a call in a code fence is held there, or shown past its line. -/
theorem block_iff {before : List Char} (hfence : fence <+: text.dropWhile spaces)
    (hblock : (R.whole.blockAt (text.dropWhile spaces)).isSome = true) :
    before.length + R.safeFrom (text.take (m - before.length)) false ≤ before.length ↔
      R.held m (R.placesFrom before.length text false) = true := by
  obtain ⟨rest, hrest⟩ := hfence
  have hpart := part_take text m before.length
  rw [placesFrom_fenced _ ⟨rest, hrest⟩, if_pos hblock, held_fenced rfl, held, Bool.or_false,
    Place.maybe, if_pos rfl, ← hpart]
  have hadd := lead_add (text.take (m - before.length))
  by_cases hlong : ((text.take (m - before.length)).dropWhile spaces).length < fence.length
  · -- not all of the fence has come
    have hf : ¬fence <+: (text.take (m - before.length)).dropWhile spaces :=
      fun h => absurd h.length_le (by omega)
    have hmarks : ∀ c ∈ (text.take (m - before.length)).dropWhile spaces, c = '`' := by
      intro c hc
      rw [hpart, ← hrest, List.take_append_of_le_length] at hc
      · exact List.eq_of_mem_replicate (n := 3) (List.mem_of_mem_take hc)
      · rw [hpart, ← hrest, List.length_take, List.length_append] at hlong
        omega
    have hnone : '\n' ∉ text.take (m - before.length) := by
      intro hend
      rw [← List.takeWhile_append_dropWhile (p := spaces) (l := text.take (m - before.length)),
        List.mem_append] at hend
      obtain hlead | hrest := hend
      · exact absurd (mem_takeWhile hlead) (by decide)
      · exact absurd (hmarks _ hrest) (by decide)
    have hwhole := lineOf_eq_self hnone
    have ho : ¬Opens ((text.take (m - before.length)).dropWhile spaces) := by
      rintro (hhead | hhead) <;>
        exact absurd (hmarks _ (List.mem_of_mem_head? hhead)) (by decide)
    have hline : lineOf ((text.take (m - before.length)).dropWhile spaces) =
        (text.take (m - before.length)).dropWhile spaces := by
      rw [← head_eq, hwhole]
    rw [if_pos hlong, safeFrom_plain hf ho, if_pos]
    · exact iff_of_true le_rfl rfl
    · refine ⟨by rw [hwhole]; exact lt_irrefl _, ?_⟩
      rw [hline]
      cases hhead : (text.take (m - before.length)).dropWhile spaces with
      | nil => exact .inl rfl
      | cons c rest =>
        rw [hmarks c (hhead ▸ List.mem_cons_self)]
        exact .inr rfl
  · have hne : text.take (m - before.length) ≠ [] := by
      intro hnil
      rw [hnil] at hlong
      exact hlong (by decide)
    have hf : fence <+: (text.take (m - before.length)).dropWhile spaces := by
      rw [hpart] at hlong ⊢
      rw [List.length_take, show fence.length = 3 from rfl] at hlong
      exact fence_take.mpr ⟨⟨rest, hrest⟩, by omega⟩
    rw [if_neg hlong, safeFrom_fenced hf]
    split
    · next hholds => exact iff_of_true le_rfl hholds
    · next hholds =>
      have hpos : 0 < past (R := R) (text.take (m - before.length)) true := past_pos hne
      exact iff_of_false (by omega) hholds

/-- A prefix that reaches into a call that is a value of its own is held there, or shown. -/
theorem call_iff {before rest : List Char} {v : Json} (hopens : Opens (text.dropWhile spaces))
    (hnext : R.whole.next (text.dropWhile spaces) = some (v, rest))
    (hcall : (R.whole.callIn v).isSome = true) :
    before.length + R.safeFrom (text.take (m - before.length)) false ≤ before.length ↔
      R.held m (R.placesFrom before.length text false) = true := by
  have hpart := part_take text m before.length
  rw [placesFrom_call hopens hnext hcall, held, Place.maybe, if_neg Bool.false_ne_true, ← hpart]
  by_cases hnil : (text.take (m - before.length)).dropWhile spaces = []
  · -- nothing of the value has come
    have hnone : '\n' ∉ text.take (m - before.length) := by
      intro hend
      rw [← List.takeWhile_append_dropWhile (p := spaces) (l := text.take (m - before.length)),
        hnil, List.append_nil] at hend
      exact absurd (mem_takeWhile hend) (by decide)
    have hf : ¬fence <+: (text.take (m - before.length)).dropWhile spaces := by
      rw [hnil]
      decide
    have ho : ¬Opens ((text.take (m - before.length)).dropWhile spaces) := by
      rw [hnil]
      decide
    rw [if_pos hnil, safeFrom_plain hf ho, if_pos]
    · exact iff_of_true le_rfl rfl
    · refine ⟨by rw [lineOf_eq_self hnone]; exact lt_irrefl _, .inl ?_⟩
      rw [hnil]
      rfl
  · have hk : 0 < m - (before.length + (text.takeWhile spaces).length) := by
      rw [hpart] at hnil
      by_contra hzero
      exact hnil (by rw [Nat.eq_zero_of_not_pos hzero, List.take_zero])
    have ho : Opens ((text.take (m - before.length)).dropWhile spaces) := by
      rw [hpart, opens_take hk]
      exact hopens
    have hadd := lead_add (text.take (m - before.length))
    have hpos := List.length_pos_of_ne_nil hnil
    have hne : text.take (m - before.length) ≠ [] := by
      intro heq
      rw [heq] at hnil
      exact hnil rfl
    rw [if_neg hnil]
    cases hnext : R.whole.next ((text.take (m - before.length)).dropWhile spaces) with
    | some next =>
      obtain ⟨v', rest'⟩ := next
      have hmaybe := StreamReader.mayBeACall_whole (P := R.stream) hnext
      have hlt := R.whole.next_length hnext
      cases hcall' : R.whole.callIn v' with
      | some call =>
        rw [show R.stream.callIn v' = _ from hcall', Option.isSome_some, if_pos rfl] at hmaybe
        rw [hmaybe, safeFrom_held ho (by rw [hmaybe]; rfl)]
        exact iff_of_true le_rfl rfl
      | none =>
        rw [show R.stream.callIn v' = _ from hcall', Option.isSome_none,
          if_neg Bool.false_ne_true] at hmaybe
        rw [hmaybe, safeFrom_value ho hnext hcall']
        exact iff_of_false (by omega) Bool.false_ne_true
    | none =>
      obtain hmaybe | hmaybe | hmaybe := StreamReader.mayBeACall_open (P := R.stream) hnext
      · have hshown : 0 < past (R := R) (text.take (m - before.length)) false := past_pos hne
        rw [hmaybe, safeFrom_unread ho hnext hmaybe]
        exact iff_of_false (by omega) Bool.false_ne_true
      · rw [hmaybe, safeFrom_held ho (by rw [hmaybe]; rfl)]
        exact iff_of_true le_rfl rfl
      · rw [hmaybe, safeFrom_open ho hnext hmaybe]
        exact iff_of_false (by omega) Bool.false_ne_true

/-- Nothing of the call is shown of a prefix that reaches into it exactly where the prefix is held
at one of the places the whole reply's scanner comes to. -/
theorem Finds.safe_iff {found : Found} {before : List Char}
    (h : Finds R.whole found before text inFence) (hm : found.before.length < m)
    (hlen : m ≤ before.length + text.length) :
    before.length + R.safeFrom (text.take (m - before.length)) inFence ≤ found.before.length ↔
      R.held m (R.placesFrom before.length text inFence) = true := by
  induction h with
  | @inside before text hline hrest ih =>
    have hle := hrest.before_le
    simp only [List.length_append, List.length_singleton, List.length_drop] at hle ih
    have hhead : lineOf (text.take (m - before.length)) = lineOf text := lineOf_take (by omega)
    rw [safeFrom_inside, placesFrom_inside, hhead]
    exact past_iff hline hle hm (ih (by omega))
  | @fenced before text hfence hnone hline hrest ih =>
    have hle := hrest.before_le
    simp only [List.length_append, List.length_singleton, List.length_drop] at hle ih
    have hpart := part_take text m before.length
    -- the fence is in the line, which has come
    have hlong := (List.isPrefixOf_iff_prefix.mp ((fence_lineOf _).mpr hfence)).length_le
    rw [show fence.length = 3 from rfl] at hlong
    have hadd := line_add text
    have hf : fence <+: (text.take (m - before.length)).dropWhile spaces := by
      rw [hpart]
      exact fence_take.mpr ⟨hfence, by omega⟩
    have hnot := Nat.not_lt.mpr hf.length_le
    rw [placesFrom_fenced _ hfence, hnone, Option.isSome_none, if_neg Bool.false_ne_true,
      safeFrom_fenced hf, held_fenced rfl, Place.maybe, if_pos rfl, ← hpart, if_neg hnot]
    split
    · next hholds =>
      rw [hholds, Bool.true_or]
      exact iff_of_true (by omega) rfl
    · next hholds =>
      rw [Bool.not_eq_true] at hholds
      rw [hholds, Bool.false_or]
      exact past_iff hline hle hm (ih (by omega))
  | block hfence hblock hbefore =>
    rw [hbefore]
    exact block_iff hfence hblock
  | call hopens hnext hcall hbefore =>
    rw [hbefore]
    exact call_iff hopens hnext hcall
  | @value before text v rest hopens hnext hcall hrest ih =>
    obtain ⟨n, hread, rfl⟩ := whole_next hnext
    have hn := (R.used _ v n hread).2
    have hadd := lead_add text
    have htaken : (before ++ text.take (text.length -
        ((text.dropWhile spaces).drop n).length)).length =
          before.length + ((text.takeWhile spaces).length + n) := by
      rw [List.length_append, List.length_take, List.length_drop]
      omega
    have hle := hrest.before_le
    have hrec := ih (by rw [htaken, List.length_drop]; omega)
    rw [htaken] at hle hrec
    exact value_iff hopens hread hnext hcall hle hm hrec
  | @unread before text hopens hnext hline hrest ih =>
    have hle := hrest.before_le
    simp only [List.length_append, List.length_singleton, List.length_drop] at hle ih
    have hadd := line_add text
    have hk : 0 < m - (before.length + (text.takeWhile spaces).length) := by omega
    obtain ⟨ho, hmaybe⟩ := maybe_open (R := R) hopens (Nat.lt_of_sub_pos hk)
    have hnone := next_take hopens hnext hk
    rw [← part_take] at hnone
    rw [placesFrom_unread hopens hnext, held, hmaybe]
    obtain hwords | hheld | hopen := StreamReader.mayBeACall_open (P := R.stream) hnone
    · rw [hwords, safeFrom_unread ho hnone hwords]
      exact past_iff hline hle hm (ih (by omega))
    · rw [hheld, safeFrom_held ho (by rw [hheld]; rfl)]
      exact iff_of_true (by omega) rfl
    · rw [hopen, safeFrom_open ho hnone hopen, List.length_take]
      exact iff_of_false (by omega) Bool.false_ne_true
  | @words before text hf ho hline hrest ih =>
    have hle := hrest.before_le
    simp only [List.length_append, List.length_singleton, List.length_drop] at hle ih
    have hpart := part_take text m before.length
    have hadd := line_add text
    have hf' : ¬fence <+: (text.take (m - before.length)).dropWhile spaces := by
      rw [hpart]
      exact fun h => hf (fence_take.mp h).1
    have ho' : ¬Opens ((text.take (m - before.length)).dropWhile spaces) := by
      rw [hpart, opens_take (by omega)]
      exact ho
    have hended : (lineOf (text.take (m - before.length))).length <
        (text.take (m - before.length)).length := by
      rw [lineOf_take (by omega), List.length_take]
      omega
    rw [safeFrom_plain hf' ho', if_neg fun h => h.1 hended, placesFrom_plain hf ho]
    exact past_iff hline hle hm (ih (by omega))

theorem past_le (ih : ∀ rest f, rest.length < text.length → R.safeFrom rest f ≤ rest.length) :
    past (R := R) text inFence ≤ text.length := by
  rw [past]
  split
  · have hrest := ih (text.drop ((lineOf text).length + 1)) inFence (by
      rw [List.length_drop]
      omega)
    rw [List.length_drop] at hrest
    omega
  · exact le_rfl

/-- No more of a text is shown than there is. -/
theorem safeFrom_le (text : List Char) (inFence : Bool) :
    R.safeFrom text inFence ≤ text.length := by
  induction hn : text.length using Nat.strong_induction_on generalizing text inFence with
  | _ n ih =>
    subst hn
    have hpast : ∀ f, past (R := R) text f ≤ text.length :=
      fun f => past_le fun rest f hrest => ih _ hrest rest f rfl
    cases inFence with
    | true =>
      rw [safeFrom_inside]
      exact hpast _
    | false =>
      by_cases hf : fence <+: text.dropWhile spaces
      · rw [safeFrom_fenced hf]
        split
        · exact Nat.zero_le _
        · exact hpast _
      · by_cases ho : Opens (text.dropWhile spaces)
        · cases hnext : R.whole.next (text.dropWhile spaces) with
          | some next =>
            obtain ⟨v, rest⟩ := next
            have hmaybe := StreamReader.mayBeACall_whole (P := R.stream) hnext
            have hlt := R.whole.next_length hnext
            have hadd := lead_add text
            cases hcall : R.whole.callIn v with
            | some call =>
              rw [show R.stream.callIn v = _ from hcall, Option.isSome_some, if_pos rfl] at hmaybe
              rw [safeFrom_held ho (by rw [hmaybe]; rfl)]
              exact Nat.zero_le _
            | none =>
              have hrest := ih _ (by omega) rest false rfl
              rw [safeFrom_value ho hnext hcall]
              omega
          | none =>
            obtain hmaybe | hmaybe | hmaybe := StreamReader.mayBeACall_open (P := R.stream) hnext
            · rw [safeFrom_unread ho hnext hmaybe]
              exact hpast _
            · rw [safeFrom_held ho (by rw [hmaybe]; rfl)]
              exact Nat.zero_le _
            · rw [safeFrom_open ho hnext hmaybe]
        · rw [safeFrom_plain hf ho]
          split
          · exact Nat.zero_le _
          · exact hpast _

/-! ### The loop, where it goes straight on -/

/-- A turn of the loop, from where so much more may be shown: it stops with that, or comes to a place
further on. -/
def Goes (R : PrefixReader) (before rest : List Char) (upto : Nat)
    (round : Round StreamReader.Place Nat) : Prop :=
  round = .stop (byteLength ((before ++ rest).take (before.length + upto))) ∨
    ∃ before' rest' inFence', before ++ rest = before' ++ rest' ∧ before.length < before'.length ∧
      round = .next ⟨byteLength before', inFence'⟩ ∧
      before.length + upto = before'.length + R.safeFrom rest' inFence'

section Turns

variable {before rest : List Char}

theorem goes_onward (f f' : Bool) : Goes R before rest (past (R := R) rest f)
    (StreamReader.onward ⟨byteLength before, f'⟩ rest (byteLength (before ++ rest)) f) := by
  rw [past, StreamReader.onward]
  by_cases hline : (lineOf rest).length < rest.length
  · obtain ⟨htext, hbytes⟩ := StreamReader.line_boundary before hline
    rw [if_pos hline]
    refine .inr ⟨_, _, f, htext, ?_, ?_, ?_⟩
    · simp only [List.length_append, List.length_singleton]
      omega
    · exact (if_pos hline).trans (by rw [hbytes])
    · simp only [List.length_append, List.length_singleton, lineOf]
      omega
  · rw [if_neg hline]
    refine .inl ((if_neg hline).trans ?_)
    rw [List.take_of_length_le (by rw [List.length_append])]

theorem goes_held : Goes R before rest 0 (.stop (byteLength before)) := by
  refine .inl ?_
  rw [Nat.add_zero, List.take_left']
  rfl

theorem goes_all : Goes R before rest rest.length (.stop (byteLength (before ++ rest))) := by
  refine .inl ?_
  rw [List.take_of_length_le (by rw [List.length_append])]

/-- **A turn** that passes over no value but one that begins the text. -/
theorem goes_safeTurn
    (hstraight : ∀ n, R.stream.PassesOver (before ++ rest) ⟨byteLength before, inFence⟩ n →
      byteLength before = 0 ∧ Opens (before ++ rest)) :
    Goes R before rest (R.safeFrom rest inFence)
      (R.stream.safeTurn (before ++ rest) ⟨byteLength before, inFence⟩) := by
  have hcontent : StreamReader.content rest = rest.dropWhile spaces := drop_lead rest
  have hhead : StreamReader.head rest = lineOf (rest.dropWhile spaces) := head_eq rest
  have hopens : (StreamReader.head rest).head? = some '{' ∨
      (StreamReader.head rest).head? = some '[' ↔ Opens (rest.dropWhile spaces) := by
    rw [hhead]
    exact opens_lineOf _
  rw [StreamReader.safeTurn, sliceAt_append]
  dsimp only
  cases inFence with
  | true =>
    rw [if_pos rfl, safeFrom_inside]
    exact goes_onward _ _
  | false =>
    rw [if_neg Bool.false_ne_true, hcontent, hhead]
    by_cases hf : fence <+: rest.dropWhile spaces
    · rw [if_pos ((fence_lineOf _).mpr hf), safeFrom_fenced hf]
      cases R.stream.fencedMayBeACall (rest.dropWhile spaces) with
      | none => exact goes_onward _ _
      | some maybe =>
        cases maybe with
        | yes | undecided => exact goes_held
        | not | words => exact goes_onward _ _
    · rw [if_neg fun h => hf ((fence_lineOf _).mp h)]
      rw [hhead] at hopens
      by_cases ho : Opens (rest.dropWhile spaces)
      · rw [if_pos (hopens.mpr ho)]
        cases hnext : R.whole.next (rest.dropWhile spaces) with
        | some next =>
          obtain ⟨v, after⟩ := next
          have hmaybe := StreamReader.mayBeACall_whole (P := R.stream) hnext
          cases hcall : R.whole.callIn v with
          | some call =>
            rw [show R.stream.callIn v = _ from hcall, Option.isSome_some, if_pos rfl] at hmaybe
            rw [hmaybe, safeFrom_held ho (by rw [hmaybe]; rfl)]
            exact goes_held
          | none =>
            rw [show R.stream.callIn v = _ from hcall, Option.isSome_none,
              if_neg Bool.false_ne_true] at hmaybe
            obtain ⟨hzero, hbegins⟩ := hstraight _ ⟨rfl, before, rest, v, after, rfl, rfl,
              (hhead ▸ hopens).mpr ho, hcontent ▸ hnext, hcall, rfl⟩
            -- the value begins the text
            have hnil : before = [] := by
              by_contra hne
              exact absurd hzero (Nat.pos_iff_ne_zero.mp (byteLength_pos hne))
            subst hnil
            have hall : rest.dropWhile spaces = rest := by
              cases rest with
              | nil => rfl
              | cons c tail =>
                refine List.dropWhile_cons_of_neg ?_
                obtain hc | hc := hbegins
                · cases hc
                  decide
                · cases hc
                  decide
            rw [safeFrom_value ho hnext hcall, hmaybe]
            rw [hall] at hnext ⊢
            obtain ⟨taken, rfl, hne⟩ := R.whole.used _ _ _ hnext
            refine .inr ⟨taken, after, false, rfl, List.length_pos_of_ne_nil hne, ?_, ?_⟩
            · dsimp only
              rw [byteLength_append, Nat.add_sub_cancel]
            · rw [List.length_append, Nat.add_sub_cancel, List.length_nil, Nat.zero_add]
        | none =>
          obtain hmaybe | hmaybe | hmaybe := StreamReader.mayBeACall_open (P := R.stream) hnext
          · rw [hmaybe, safeFrom_unread ho hnext hmaybe]
            exact goes_onward _ _
          · rw [hmaybe, safeFrom_held ho (by rw [hmaybe]; rfl)]
            exact goes_held
          · rw [hmaybe, safeFrom_open ho hnext hmaybe]
            exact goes_all
      · rw [if_neg fun h => ho (hopens.mp h), safeFrom_plain hf ho]
        have hcond : (¬(lineOf rest).length < rest.length ∧
            ((lineOf (rest.dropWhile spaces)).isEmpty = true ∨
              (lineOf (rest.dropWhile spaces)).head? = some '`')) ↔
            ¬(lineOf rest).length < rest.length ∧ (lineOf (rest.dropWhile spaces) = [] ∨
              (lineOf (rest.dropWhile spaces)).head? = some '`') := by
          rw [List.isEmpty_iff]
        by_cases hcut : ¬(lineOf rest).length < rest.length ∧
            (lineOf (rest.dropWhile spaces) = [] ∨
              (lineOf (rest.dropWhile spaces)).head? = some '`')
        · rw [if_pos hcut]
          exact (if_pos (hcond.mpr hcut)).symm ▸ goes_held
        · rw [if_neg hcut]
          exact (if_neg fun h => hcut (hcond.mp h)).symm ▸ goes_onward false false

/-- The loop ends where the scanner of places does. -/
theorem scan_safeTurn (k : Nat) (hk : rest.length < k)
    (hstraight : ∀ s, Reached (R.stream.safeTurn (before ++ rest)) ⟨byteLength before, inFence⟩ s →
      ∀ n, R.stream.PassesOver (before ++ rest) s n → s.pos = 0 ∧ Opens (before ++ rest)) :
    scan (R.stream.safeTurn (before ++ rest)) k ⟨byteLength before, inFence⟩ =
      some (byteLength ((before ++ rest).take (before.length + R.safeFrom rest inFence))) := by
  induction k generalizing before rest inFence with
  | zero => exact absurd hk (Nat.not_lt_zero _)
  | succ k ih =>
    rw [scan]
    obtain hstop | ⟨before', rest', inFence', heq, hlt, hnext, hsame⟩ :=
      goes_safeTurn (hstraight _ .refl)
    · rw [hstop]
    · have hlength := congrArg List.length heq
      rw [List.length_append, List.length_append] at hlength
      rw [hnext, hsame, heq]
      rw [heq] at hstraight hnext
      exact ih (by omega) fun s hs => hstraight s (Relation.ReflTransGen.head hnext hs)

end Turns

theorem safeToShow_of_straight (h : R.Straight text) {fuel : Nat} (hfuel : text.length < fuel) :
    R.safeToShow fuel text = some (byteLength (text.take (R.safeFrom text false))) := by
  have hscan := @scan_safeTurn R false [] text fuel hfuel h
  rw [List.nil_append, List.length_nil, Nat.zero_add] at hscan
  exact hscan

/-! ### What is delivered -/

variable {repeatingFrom : List Char → Option Nat} {fuel : Nat}

theorem deliver_repeated (pieces : List (List Char)) (seen shown : List Char) :
    pieces.foldlM (R.deliver fuel repeatingFrom) (seen, shown, true) =
      some (seen, shown, true) := by
  induction pieces with
  | nil => rfl
  | cons piece rest ih => exact ih

/-- However a text comes in pieces, what is delivered of it ends where every prefix's showing
does. -/
theorem deliver_shown {limit : Nat}
    (hsafe : ∀ m ≤ text.length, ∃ upto ≤ limit,
      R.safeToShow fuel (text.take m) = some (byteLength ((text.take m).take upto)))
    (pieces : List (List Char)) {seen shown : List Char} (hseen : seen ++ pieces.flatten <+: text)
    (hshown : shown <+: seen) (hlimit : shown.length ≤ limit) :
    ∃ r, pieces.foldlM (R.deliver fuel repeatingFrom) (seen, shown, false) = some r ∧
      r.2.1 <+: text.take limit := by
  induction pieces generalizing seen shown with
  | nil =>
    rw [List.flatten_nil, List.append_nil] at hseen
    exact ⟨_, rfl, List.prefix_take_iff.mpr ⟨hshown.trans hseen, hlimit⟩⟩
  | cons piece rest ih =>
    rw [List.flatten_cons, ← List.append_assoc] at hseen
    have hcome : seen ++ piece <+: text := (List.prefix_append _ _).trans hseen
    have hmore : shown <+: seen ++ piece := hshown.trans (List.prefix_append _ _)
    rw [List.foldlM_cons, deliver, if_neg Bool.false_ne_true]
    dsimp only
    split
    · rw [Option.bind_eq_bind, Option.bind_some, deliver_repeated]
      exact ⟨_, rfl, List.prefix_take_iff.mpr ⟨hmore.trans hcome, hlimit⟩⟩
    · obtain ⟨upto, hupto, hscan⟩ := hsafe _ hcome.length_le
      rw [← List.prefix_iff_eq_take.mp hcome] at hscan
      rw [hscan, Option.bind_some]
      split
      · next hlt =>
        have hcut := sliceAt_append ((seen ++ piece).take upto) ((seen ++ piece).drop upto)
        rw [List.take_append_drop] at hcut
        rw [hcut]
        have hinside : shown <+: (seen ++ piece).take upto := by
          refine (List.prefix_or_prefix_of_prefix hmore (List.take_prefix upto _)).resolve_right ?_
          rintro ⟨tail, rfl⟩
          rw [byteLength_append] at hlt
          omega
        have hshows : shown ++ ((seen ++ piece).take upto).drop shown.length =
            (seen ++ piece).take upto := by
          obtain ⟨tail, htail⟩ := hinside
          rw [← htail, List.drop_left]
        dsimp only [Option.map_some, Option.bind_eq_bind, Option.bind_some]
        rw [hshows]
        refine ih hseen (List.take_prefix _ _) ?_
        rw [List.length_take]
        omega
      · exact ih hseen hmore hlimit

/-- A part of a text is no longer than another beginning of it where it has no more bytes. -/
theorem take_le_iff {before : List Char} {k : Nat} (hbefore : before <+: text)
    (hk : k ≤ text.length) :
    byteLength (text.take k) ≤ byteLength before ↔ k ≤ before.length := by
  constructor
  · intro hle
    by_contra hlt
    have hprefix : before <+: text.take k := List.prefix_take_iff.mpr ⟨hbefore, by omega⟩
    obtain ⟨tail, htail⟩ := hprefix
    have hne : tail ≠ [] := by
      rintro rfl
      have hlength := congrArg List.length htail
      rw [List.append_nil, List.length_take] at hlength
      omega
    have hpos := byteLength_pos hne
    rw [← htail, byteLength_append] at hle
    omega
  · intro hle
    have hprefix : text.take k <+: before := by
      rw [List.prefix_iff_eq_take.mp hbefore]
      exact List.take_prefix_take_left hle
    obtain ⟨tail, htail⟩ := hprefix
    rw [← htail, byteLength_append]
    omega

/-- **A call written into an answer is never shown** exactly where every prefix of the reply that
reaches into the call is held: at the first of the places the scanner of whole replies comes to that
the prefix does not pass over, there may still be a call. This is of replies of which no prefix has a
value passed over that does not begin it. -/
theorem shown_before_iff {found : Found}
    (h : R.whole.callBlockFrom [] text false = some found)
    (hstraight : ∀ m ≤ text.length, R.Straight (text.take m)) :
    (∃ turns, ∀ fuel ≥ turns, (∀ m ≤ text.length, ∃ upto ∈ R.safeToShow fuel (text.take m),
        upto ≤ byteLength found.before) ∧
      ∀ repeatingFrom pieces, List.flatten pieces <+: text →
        ∃ words ∈ R.delivered fuel repeatingFrom pieces, words <+: found.before) ↔
      R.HeldBack text found := by
  have hfinds := finds_of_callBlockFrom h
  obtain ⟨block, hblock, -⟩ := callBlockFrom_block h
  have hprefix : found.before <+: text := ⟨block, by rw [← hblock, List.nil_append]⟩
  have hiff : ∀ m, found.before.length < m → m ≤ text.length →
      (R.safeFrom (text.take m) false ≤ found.before.length ↔
        R.held m (R.placesFrom 0 text false) = true) := by
    intro m hm hlen
    have hsafe := hfinds.safe_iff hm (by rw [List.length_nil]; omega)
    simpa only [List.length_nil, Nat.sub_zero, Nat.zero_add] using hsafe
  have hscan : ∀ fuel > text.length, ∀ m ≤ text.length, R.safeToShow fuel (text.take m) =
      some (byteLength ((text.take m).take (R.safeFrom (text.take m) false))) := by
    intro fuel hfuel m hm
    refine safeToShow_of_straight (hstraight m hm) ?_
    rw [List.length_take]
    omega
  constructor
  · rintro ⟨turns, hturns⟩ m hm hlen
    obtain ⟨upto, hupto, hle⟩ := (hturns (max turns (text.length + 1)) (le_max_left ..)).1 m hlen
    rw [hscan _ (by omega) m hlen] at hupto
    cases hupto
    have hsafe := safeFrom_le (R := R) (text.take m) false
    rw [List.length_take, Nat.min_eq_left hlen] at hsafe
    rw [List.take_take, Nat.min_eq_left hsafe, take_le_iff hprefix (by omega)] at hle
    exact (hiff m hm hlen).mp hle
  · intro hheld
    have hsafe : ∀ m ≤ text.length, R.safeFrom (text.take m) false ≤ found.before.length := by
      intro m hlen
      by_cases hm : found.before.length < m
      · exact (hiff m hm hlen).mpr (hheld m hm hlen)
      · -- the prefix ends before the call
        have hle := safeFrom_le (R := R) (text.take m) false
        rw [List.length_take] at hle
        omega
    refine ⟨text.length + 1, fun fuel hfuel => ⟨fun m hlen => ?_, ?_⟩⟩
    · refine ⟨_, hscan fuel hfuel m hlen, ?_⟩
      have hle := safeFrom_le (R := R) (text.take m) false
      rw [List.length_take, Nat.min_eq_left hlen] at hle
      rw [List.take_take, Nat.min_eq_left hle]
      exact (take_le_iff hprefix (by omega)).mpr (hsafe m hlen)
    · intro repeatingFrom pieces hpieces
      have hpieces' : [] ++ pieces.flatten <+: text := hpieces
      have hshown : ∃ r, pieces.foldlM (R.deliver fuel repeatingFrom) ([], [], false) = some r ∧
          r.2.1 <+: text.take found.before.length :=
        deliver_shown (fun m hlen => ⟨_, hsafe m hlen, hscan fuel hfuel m hlen⟩) pieces hpieces'
          List.nil_prefix (Nat.zero_le _)
      obtain ⟨r, hr, hshown⟩ := hshown
      rw [← List.prefix_iff_eq_take.mp hprefix] at hshown
      exact ⟨r.2.1, Option.map_eq_some_iff.mpr ⟨r, hr, rfl⟩, hshown⟩

end Places

/-! ### Two calls -/

theorem prefix_of_find {values : List (List Char × Json)} {text : List Char} {p : List Char × Json}
    (h : values.find? (fun p => p.1.isPrefixOf text) = some p) : p.1 <+: text := by
  have hfound := List.find?_some (p := fun p : List Char × Json => p.1.isPrefixOf text) h
  exact List.isPrefixOf_iff_prefix.mp hfound

/-- What has no value read first has none in what has come of it. -/
theorem find_take {values : List (List Char × Json)} {text : List Char} (m : Nat)
    (h : values.find? (fun p => p.1.isPrefixOf text) = none) :
    values.find? (fun p => p.1.isPrefixOf (text.take m)) = none := by
  refine List.find?_eq_none.mpr fun q hq hin => List.find?_eq_none.mp h q hq ?_
  rw [List.isPrefixOf_iff_prefix] at hin ⊢
  exact hin.trans (List.take_prefix _ _)

/-- A reader that reads some values, and the beginnings of another text as cut short. -/
def reading (values : List (List Char × Json)) (cut : List Char)
    (hvalues : ∀ p ∈ values, p.1 ≠ []) : PrefixReader where
  read text := match values.find? fun p => p.1.isPrefixOf text with
    | some p => .whole p.2 p.1.length
    | none => if text ≠ [] ∧ ((∃ p ∈ values, text <+: p.1) ∨ text <+: cut) then .eof else .bad
  used text v n h := by
    split at h
    · next p hp =>
      obtain ⟨rfl, rfl⟩ := Read.whole.inj h
      exact ⟨List.length_pos_of_ne_nil (hvalues p (List.mem_of_find?_eq_some hp)),
        (prefix_of_find hp).length_le⟩
    · split at h <;> cases h
  whole_take text v n m _ h hn := by
    split at h
    · next p hp =>
      obtain ⟨rfl, rfl⟩ := Read.whole.inj h
      have hfound : values.find? (fun q => q.1.isPrefixOf (text.take m)) = some p := by
        obtain ⟨hpre, as, bs, hsplit, has⟩ := List.find?_eq_some_iff_append.mp hp
        refine List.find?_eq_some_iff_append.mpr ⟨?_, as, bs, hsplit, fun a ha => ?_⟩
        · exact List.isPrefixOf_iff_prefix.mpr
            (List.prefix_take_iff.mpr ⟨List.isPrefixOf_iff_prefix.mp hpre, hn⟩)
        · have hnot := has a ha
          rw [Bool.not_eq_true', ← Bool.not_eq_true, List.isPrefixOf_iff_prefix] at hnot ⊢
          exact fun hin => hnot (hin.trans (List.take_prefix _ _))
      rw [hfound]
    · split at h <;> cases h
  eof_take text m _ h hm := by
    split at h
    · cases h
    · next hnone =>
      split at h
      · next hcut =>
        obtain ⟨hne, hcut⟩ := hcut
        have hne' : text.take m ≠ [] := by
          rw [ne_eq, List.take_eq_nil_iff]
          rintro (rfl | rfl)
          · exact absurd hm (lt_irrefl _)
          · exact hne rfl
        rw [find_take m hnone]
        refine if_pos ⟨hne', ?_⟩
        obtain ⟨p, hp, hin⟩ | hin := hcut
        · exact .inl ⟨p, hp, (List.take_prefix _ _).trans hin⟩
        · exact .inr ((List.take_prefix _ _).trans hin)
      · cases h
  bad_take text m _ h := by
    split at h
    · cases h
    · next hnone =>
      rw [find_take m hnone]
      dsimp only
      split
      · exact .inr rfl
      · exact .inl rfl

def called : Json :=
  .obj [("arguments", .obj []), ("name", .str "notes.read")]

/-- A call whose first key is spelled out. -/
def plainCall : List Char :=
  "\x7b\"name\": \"notes.read\", \"arguments\": \x7b\x7d\x7d".toList

/-- The same call, with its first key spelled another way. -/
def spelledCall : List Char :=
  "\x7b\"n\\u0061me\": \"notes.read\", \"arguments\": \x7b\x7d\x7d".toList

def listed : List Char :=
  "[1]".toList

/-- It reads a list, and the call. -/
def plainReader : PrefixReader :=
  reading [(listed, .arr [.num 1 0]), (plainCall, called)] [] (by decide +kernel)

def spelledReader : PrefixReader :=
  reading [(spelledCall, called)] [] (by decide +kernel)

/-- A list, some words, and a call, its first key spelled out. -/
def plainReply : List Char :=
  "[1]\nHere:\n".toList ++ plainCall

/-- The list is passed over where the reply begins, and no other value is. -/
theorem plainReply_straight (m : Nat) : plainReader.Straight (plainReply.take m) := by
  rintro s - n ⟨-, before, rest, v, after, htext, hpos, -, hnext, hcall, -⟩
  obtain ⟨k, hread, -⟩ := whole_next (R := plainReader) hnext
  have hlisted : listed <+: StreamReader.content rest := by
    dsimp only [plainReader, reading] at hread
    split at hread
    · next p hp =>
      obtain hp' | hp' : p = (listed, .arr [.num 1 0]) ∨ p = (plainCall, called) := by
        simpa using List.mem_of_find?_eq_some hp
      · have hin := prefix_of_find hp
        rw [hp'] at hin
        exact hin
      · obtain ⟨rfl, -⟩ := Read.whole.inj hread
        rw [hp'] at hcall
        exact absurd hcall (by decide +kernel)
    · split at hread <;> cases hread
  have honly : ∀ i ∈ List.range (plainReply.length + 1),
      listed <+: (plainReply.drop i).dropWhile spaces → i = 0 := by
    decide +kernel
  have hle : before.length ≤ plainReply.length := by
    have hlength := congrArg List.length htext
    rw [List.length_take, List.length_append] at hlength
    omega
  have hzero : before.length = 0 := by
    refine honly _ (List.mem_range.mpr (by omega)) (hlisted.trans ?_)
    have hrest : rest = (plainReply.drop before.length).take (m - before.length) := by
      rw [← List.drop_take, htext, List.drop_left]
    rw [show StreamReader.content rest = rest.dropWhile spaces from drop_lead rest, hrest,
      dropWhile_take]
    exact List.take_prefix _ _
  obtain rfl := List.length_eq_zero_iff.mp hzero
  refine ⟨hpos, ?_⟩
  have hm : 0 < m := by
    refine Nat.pos_of_ne_zero ?_
    rintro rfl
    have hnil : rest = [] := htext.symm
    rw [hnil] at hlisted
    exact absurd hlisted (by decide)
  rw [opens_take hm]
  decide

theorem shown_before_plain : ∃ found, plainReader.whole.callBlockFrom [] plainReply false =
      some found ∧ found.before = "[1]\nHere:\n".toList ∧
    ∃ turns, ∀ fuel ≥ turns, (∀ m ≤ plainReply.length,
        ∃ upto ∈ plainReader.safeToShow fuel (plainReply.take m),
          upto ≤ byteLength found.before) ∧
      ∀ repeatingFrom pieces, List.flatten pieces <+: plainReply →
        ∃ words ∈ plainReader.delivered fuel repeatingFrom pieces, words <+: found.before := by
  have hbefore : (plainReader.whole.callBlockFrom [] plainReply false).map (·.before) =
      some "[1]\nHere:\n".toList := by decide +kernel
  obtain ⟨found, hfound, hbefore⟩ := Option.map_eq_some_iff.mp hbefore
  have hall : (List.range (plainReply.length + 1)).all (fun m =>
      m ≤ "[1]\nHere:\n".toList.length ||
        plainReader.held m (plainReader.placesFrom 0 plainReply false)) = true := by
    decide +kernel
  refine ⟨found, hfound, hbefore,
    (shown_before_iff hfound fun m _ => plainReply_straight m).mpr fun m hm hlen => ?_⟩
  have hheld := List.all_eq_true.mp hall m (List.mem_range.mpr (by omega))
  rw [Bool.or_eq_true, decide_eq_true_eq] at hheld
  rw [hbefore] at hm
  exact hheld.resolve_left (by omega)

/-- A value that is never finished, and a call on the line after it. -/
def openReply : List Char :=
  "\x7b\"x\":\n".toList ++ plainCall

def openReader : PrefixReader :=
  reading [(plainCall, called)] openReply (by decide +kernel)

/-- A list on the second line whose end is taken for a place inside it, where a code fence seems to
begin that holds the call. -/
def fencedReply : List Char :=
  "Here\n[\"aaaaaaaaaa```\"]\n".toList ++ plainCall

def fencedReader : PrefixReader :=
  reading [("[\"aaaaaaaaaa```\"]".toList, .arr [.str "aaaaaaaaaa```"]), (plainCall, called)] []
    (by decide +kernel)

/-- The call spelled another way is shown up to where it closes: its first key is taken for another
one. The call after an unfinished value is shown as what is inside it, and the one after a list on
the second line as what is in a code fence. -/
theorem spelled_shown :
    ((spelledReader.whole.callBlockFrom [] spelledCall false).map (·.before) = some [] ∧
      spelledReader.safeToShow 100 (spelledCall.take 30) = some 30 ∧
      spelledReader.delivered 100 (fun _ => none) [spelledCall.take 30, spelledCall.drop 30] =
        some (spelledCall.take 30)) ∧
    ((openReader.whole.callBlockFrom [] openReply false).map (·.before) =
        some "\x7b\"x\":\n".toList ∧
      openReader.safeToShow 100 openReply = some openReply.length ∧
      openReader.delivered 100 (fun _ => none) [openReply] = some openReply) ∧
    (fencedReader.whole.callBlockFrom [] fencedReply false).map (·.before) =
        some "Here\n[\"aaaaaaaaaa```\"]\n".toList ∧
      fencedReader.safeToShow 100 fencedReply = some fencedReply.length ∧
      fencedReader.delivered 100 (fun _ => none) [fencedReply] = some fencedReply := by
  refine ⟨⟨?_, ?_, ?_⟩, ⟨?_, ?_, ?_⟩, ?_, ?_, ?_⟩ <;> decide +kernel

end PrefixReader

end LocalSpace
