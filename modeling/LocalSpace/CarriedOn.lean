import Mathlib.Algebra.BigOperators.Group.List.Basic
import Mathlib.Algebra.Order.Ring.Int
import Mathlib.Data.List.Infix

/-!
# Answers carried on

`model.rs`: an engine that is handed the words of a stopped answer may begin its stream with them
again. They are dropped where the stream begins with exactly them (`SaidAgain`), and until that is
known what comes is held back. However the stream is cut into pieces, what is passed on is the reply
without the words that were handed over, or else the whole of it.
-/

namespace LocalSpace

namespace CarryOn

/-! ### The machine -/

/-- A piece of a reply: words of the answer, or thinking. -/
inductive Delta where
  | words (text : List Char)
  | thinking (text : List Char)

inductive Seed where
  /-- Nothing was handed over. -/
  | none
  /-- Not yet known whether the engine says them again. -/
  | waiting
  /-- It did, exactly. -/
  | saidAgain
  /-- It did not. -/
  | notSaidAgain
  deriving DecidableEq

/-- The words that were handed over, and what came while it could still be them. -/
structure SaidAgain where
  begun : List Char
  held : List Char
  seed : Seed

/-- `str::len`. -/
@[grind =]
def bytes (text : List Char) : ℕ :=
  (text.map Char.utf8Size).sum

/-- `str::strip_prefix`. -/
def stripPrefix (start text : List Char) : Option (List Char) :=
  if start.isPrefixOf text then some (text.drop start.length) else none

namespace SaidAgain

@[grind =]
def new (begun : List Char) : SaidAgain :=
  ⟨begun, [], if begun.isEmpty then .none else .waiting⟩

/-- A piece, and what is passed on of it. -/
@[grind =]
def pass (s : SaidAgain) : Delta → SaidAgain × List Delta
  | .thinking text => (s, [.thinking text])
  | .words piece =>
    if s.seed ≠ .waiting then (s, [.words piece])
    else
      let held := s.held ++ piece
      if bytes held < bytes s.begun ∧ held.isPrefixOf s.begun then ({ s with held }, [])
      else match stripPrefix s.begun held with
        | some added =>
          ({ s with held := [], seed := .saidAgain }, if added.isEmpty then [] else [.words added])
        | none => ({ s with held := [], seed := .notSaidAgain }, [.words held])

/-- The stream is over: what was held back is passed on. -/
@[grind =]
def finish (s : SaidAgain) : SaidAgain × List Delta :=
  if s.seed = .waiting ∧ !s.held.isEmpty then
    ({ s with held := [], seed := .notSaidAgain }, [.words s.held])
  else (s, [])

/-- The text of the whole reply, with the words that were handed over taken off. -/
def carriedOn (s : SaidAgain) (text : List Char) : List Char :=
  let seed := if s.seed = .waiting then
    if s.begun.isPrefixOf text then .saidAgain else .notSaidAgain
    else s.seed
  if seed = .saidAgain then (stripPrefix s.begun text).getD text else text

/-- A stream, piece by piece. -/
def passAll (s : SaidAgain) : List Delta → SaidAgain × List Delta
  | [] => (s, [])
  | piece :: pieces =>
    let (s, passed) := s.pass piece
    let (s, rest) := s.passAll pieces
    (s, passed ++ rest)

/-- A whole stream, and its end. -/
def stream (begun : List Char) (pieces : List Delta) : SaidAgain × List Delta :=
  let (s, passed) := (new begun).passAll pieces
  let (s, rest) := s.finish
  (s, passed ++ rest)

end SaidAgain

/-! ### What a reply comes to -/

/-- The words of some pieces, in their order. -/
def wordsOf (pieces : List Delta) : List Char :=
  pieces.flatMap fun
    | .words text => text
    | .thinking _ => []

/-- The thinking among some pieces. -/
def thinkingOf (pieces : List Delta) : List Delta :=
  pieces.filter fun
    | .words _ => false
    | .thinking _ => true

/-- What a reply adds to the words that were handed over: what follows them, where it begins with
them, or else all of it. -/
@[grind =]
def added (begun text : List Char) : List Char :=
  if begun <+: text then text.drop begun.length else text

@[simp]
theorem wordsOf_nil : wordsOf [] = [] := rfl

@[simp]
theorem wordsOf_append (l l' : List Delta) : wordsOf (l ++ l') = wordsOf l ++ wordsOf l' :=
  List.flatMap_append

@[simp]
theorem wordsOf_words (text : List Char) : wordsOf [.words text] = text := by
  simp [wordsOf]

@[simp]
theorem wordsOf_thinking (text : List Char) : wordsOf [.thinking text] = [] := rfl

@[simp]
theorem thinkingOf_append (l l' : List Delta) :
    thinkingOf (l ++ l') = thinkingOf l ++ thinkingOf l' :=
  List.filter_append l l'

@[simp]
theorem thinkingOf_words (text : List Char) : thinkingOf [.words text] = [] := rfl

@[simp]
theorem thinkingOf_thinking (text : List Char) :
    thinkingOf [.thinking text] = [.thinking text] := rfl

section Prefixes

variable {begun text : List Char}

theorem stripPrefix_of_begun (h : begun <+: text) :
    stripPrefix begun text = some (text.drop begun.length) :=
  if_pos (List.isPrefixOf_iff_prefix.mpr h)

theorem stripPrefix_eq_none (h : ¬begun <+: text) : stripPrefix begun text = none :=
  if_neg fun hbegins => h (List.isPrefixOf_iff_prefix.mp hbegins)

theorem added_append (begun more : List Char) : added begun (begun ++ more) = more := by
  rw [added, if_pos (List.prefix_append _ _), List.drop_left]

theorem added_of_not_begun (h : ¬begun <+: text) : added begun text = text :=
  if_neg h

theorem bytes_append (l l' : List Char) : bytes (l ++ l') = bytes l + bytes l' := by
  simp [bytes]

/-- A text that others begin with has no more bytes; with as many, it is the whole. -/
theorem eq_of_prefix_of_bytes (h : text <+: begun) (hbytes : bytes begun ≤ bytes text) :
    text = begun := by
  obtain ⟨more, rfl⟩ := h
  rw [bytes_append] at hbytes
  cases more with
  | nil => exact (List.append_nil text).symm
  | cons c more =>
    have hpos := c.utf8Size_pos
    simp only [bytes, List.map_cons, List.sum_cons] at hbytes
    omega

/-- Two texts of which neither begins the other stay so as one goes on. -/
theorem not_prefix_append (h : ¬begun <+: text) (h' : ¬text <+: begun) (more : List Char) :
    ¬begun <+: text ++ more := by
  intro hmore
  rcases List.prefix_or_prefix_of_prefix hmore (List.prefix_append text more) with hb | ht
  · exact h hb
  · exact h' ht

end Prefixes

/-! ### What is passed on -/

/-- What the machine knows of the words that came, and what of them was passed on. -/
inductive Knows (s : SaidAgain) (came passed : List Char) : Prop
  | none (hseed : s.seed = .none) (hbegun : s.begun = []) (hpassed : passed = came)
  | waiting (hseed : s.seed = .waiting) (hheld : s.held = came) (hpassed : passed = [])
      (hbegins : came <+: s.begun) (hshort : came ≠ s.begun)
  | saidAgain (hseed : s.seed = .saidAgain) (hcame : came = s.begun ++ passed)
  | notSaidAgain (hseed : s.seed = .notSaidAgain) (hpassed : passed = came)
      (hnever : ∀ more, ¬s.begun <+: came ++ more)

section Passing

variable {s : SaidAgain} {came passed : List Char}

theorem knows_new (begun : List Char) : Knows (.new begun) [] [] := by
  cases begun with
  | nil => exact .none rfl rfl rfl
  | cons c begun => exact .waiting rfl rfl rfl List.nil_prefix (List.cons_ne_nil c begun).symm

@[simp]
theorem pass_begun (s : SaidAgain) (piece : Delta) : (s.pass piece).1.begun = s.begun := by
  cases piece with
  | thinking text => rfl
  | words text =>
    simp only [SaidAgain.pass]
    split
    · rfl
    · split
      · rfl
      · split <;> rfl

/-- **One piece**: its words have come, and what the machine knows is true of them. -/
theorem Knows.pass (h : Knows s came passed) (piece : Delta) :
    Knows (s.pass piece).1 (came ++ wordsOf [piece]) (passed ++ wordsOf (s.pass piece).2) := by
  cases piece with
  | thinking text => simpa [SaidAgain.pass] using h
  | words text =>
    rw [wordsOf_words]
    cases h with
    | none hseed hbegun hpassed =>
      rw [SaidAgain.pass, if_pos (by simp [hseed])]
      exact .none hseed hbegun (by simp [hpassed])
    | saidAgain hseed hcame =>
      rw [SaidAgain.pass, if_pos (by simp [hseed])]
      exact .saidAgain hseed (by simp [hcame])
    | notSaidAgain hseed hpassed hnever =>
      rw [SaidAgain.pass, if_pos (by simp [hseed])]
      refine .notSaidAgain hseed (by simp [hpassed]) fun more => ?_
      rw [List.append_assoc]
      exact hnever _
    | waiting hseed hheld hpassed hbegins hshort =>
      rw [SaidAgain.pass, if_neg (by simp [hseed])]
      simp only [hheld, hpassed]
      split
      · next hstill =>
        -- It may still be the words that were handed over: it is held, and shorter than they are.
        have hbegins : came ++ text <+: s.begun := List.isPrefixOf_iff_prefix.mp hstill.2
        refine .waiting hseed rfl (by simp) hbegins fun heq => ?_
        have hless := hstill.1
        change came ++ text = s.begun at heq
        rw [heq] at hless
        exact lt_irrefl _ hless
      · next hstill =>
        by_cases hagain : s.begun <+: came ++ text
        · rw [stripPrefix_of_begun hagain]
          obtain ⟨more, hmore⟩ := hagain
          refine .saidAgain rfl ?_
          rw [← hmore, List.drop_left]
          cases more <;> simp
        · -- Neither begins the other, so that nothing to come can make it their repetition.
          have hother : ¬came ++ text <+: s.begun := fun hbegins => by
            refine hstill ⟨?_, List.isPrefixOf_iff_prefix.mpr hbegins⟩
            by_contra hlong
            have heq := eq_of_prefix_of_bytes hbegins (Nat.le_of_not_lt hlong)
            exact hagain (heq ▸ List.prefix_rfl)
          rw [stripPrefix_eq_none hagain]
          exact .notSaidAgain rfl (by simp) (not_prefix_append hagain hother)

theorem passAll_cons (s : SaidAgain) (piece : Delta) (pieces : List Delta) :
    s.passAll (piece :: pieces) = (((s.pass piece).1.passAll pieces).1,
      (s.pass piece).2 ++ ((s.pass piece).1.passAll pieces).2) := rfl

/-- **Every piece of a stream.** -/
theorem Knows.passAll (h : Knows s came passed) (pieces : List Delta) :
    Knows (s.passAll pieces).1 (came ++ wordsOf pieces)
      (passed ++ wordsOf (s.passAll pieces).2) := by
  induction pieces generalizing s came passed with
  | nil => simpa [SaidAgain.passAll] using h
  | cons piece pieces ih =>
    have hnext := ih (h.pass piece)
    rw [List.append_assoc, ← wordsOf_append, List.singleton_append] at hnext
    rw [passAll_cons, wordsOf_append, ← List.append_assoc]
    exact hnext

theorem passAll_begun (s : SaidAgain) (pieces : List Delta) :
    (s.passAll pieces).1.begun = s.begun := by
  induction pieces generalizing s with
  | nil => rfl
  | cons piece pieces ih => rw [passAll_cons, ih, pass_begun]

/-- The end of the stream: what was passed on is what the reply adds, and so is what `carried_on`
makes of the whole. -/
theorem Knows.finish (h : Knows s came passed) :
    passed ++ wordsOf s.finish.2 = added s.begun came ∧
      s.finish.1.carriedOn came = added s.begun came := by
  cases h with
  | none hseed hbegun hpassed =>
    have hfinish : s.finish = (s, []) := by simp [SaidAgain.finish, hseed]
    simp [hfinish, SaidAgain.carriedOn, hseed, hbegun, hpassed, added]
  | saidAgain hseed hcame =>
    have hfinish : s.finish = (s, []) := by simp [SaidAgain.finish, hseed]
    have hbegins : s.begun <+: came := hcame ▸ List.prefix_append _ _
    have hadded : added s.begun came = passed := hcame ▸ added_append _ _
    rw [hadded, hfinish]
    refine ⟨List.append_nil _, ?_⟩
    have hdrop : came.drop s.begun.length = passed := by rw [hcame, List.drop_left]
    simp [SaidAgain.carriedOn, hseed, stripPrefix_of_begun hbegins, hdrop]
  | notSaidAgain hseed hpassed hnever =>
    have hfinish : s.finish = (s, []) := by simp [SaidAgain.finish, hseed]
    have hnot : ¬s.begun <+: came := by simpa using hnever []
    simp [hfinish, SaidAgain.carriedOn, hseed, hpassed, added_of_not_begun hnot]
  | waiting hseed hheld hpassed hbegins hshort =>
    -- The reply is over before the words that were handed over are.
    have hnot : ¬s.begun <+: came := fun hagain =>
      hshort (hbegins.eq_of_length_le hagain.length_le)
    rw [added_of_not_begun hnot]
    cases came with
    | nil =>
      have hfinish : s.finish = (s, []) := by simp [SaidAgain.finish, hheld]
      have hbegun : s.begun ≠ [] := hshort.symm
      simp [hfinish, SaidAgain.carriedOn, hseed, hpassed, hbegun]
    | cons c came =>
      simp [SaidAgain.finish, SaidAgain.carriedOn, hseed, hheld, hpassed]

/-- Thinking passes as it comes. -/
theorem thinkingOf_passAll (s : SaidAgain) (pieces : List Delta) :
    thinkingOf (s.passAll pieces).2 = thinkingOf pieces := by
  induction pieces generalizing s with
  | nil => rfl
  | cons piece pieces ih =>
    have hpiece : thinkingOf (s.pass piece).2 = thinkingOf [piece] := by
      cases piece with
      | thinking text => rfl
      | words text =>
        simp only [SaidAgain.pass]
        split
        · rfl
        · split
          · rfl
          · split
            · split <;> rfl
            · rfl
    rw [passAll_cons, thinkingOf_append, ih, hpiece, ← thinkingOf_append, List.singleton_append]

end Passing

/-- **Carrying on drops exactly the words that were handed over**, however the reply is cut into
pieces, and the whole reply is carried on to the same text. -/
theorem stream_added (begun : List Char) (pieces : List Delta) :
    wordsOf (SaidAgain.stream begun pieces).2 = added begun (wordsOf pieces) ∧
      thinkingOf (SaidAgain.stream begun pieces).2 = thinkingOf pieces ∧
      (SaidAgain.stream begun pieces).1.carriedOn (wordsOf pieces) =
        added begun (wordsOf pieces) ∧
      (SaidAgain.new begun).carriedOn (wordsOf pieces) = added begun (wordsOf pieces) := by
  have hknows := (knows_new begun).passAll pieces
  have hbegun : ((SaidAgain.new begun).passAll pieces).1.begun = begun := passAll_begun _ _
  obtain ⟨hwords, hcarried⟩ := hknows.finish
  rw [hbegun] at hwords hcarried
  simp only [List.nil_append] at hwords hcarried
  refine ⟨?_, ?_, hcarried, ?_⟩
  · rw [← hwords]
    exact wordsOf_append _ _
  · have hend : thinkingOf ((SaidAgain.new begun).passAll pieces).1.finish.2 = [] := by
      rw [SaidAgain.finish]
      split <;> rfl
    have hstream : thinkingOf (SaidAgain.stream begun pieces).2 =
        thinkingOf ((SaidAgain.new begun).passAll pieces).2 ++
          thinkingOf ((SaidAgain.new begun).passAll pieces).1.finish.2 := thinkingOf_append _ _
    rw [hstream, hend, thinkingOf_passAll, List.append_nil]
  · cases begun with
    | nil => simp [SaidAgain.carriedOn, SaidAgain.new, added]
    | cons c begun =>
      by_cases hagain : c :: begun <+: wordsOf pieces
      · simp [SaidAgain.carriedOn, SaidAgain.new, added, hagain, stripPrefix]
      · simp [SaidAgain.carriedOn, SaidAgain.new, added, hagain]

/-- The words that were handed over, cut in two, and one more. -/
example : wordsOf (SaidAgain.stream ['a', 'b'] [.words ['a'], .thinking ['?'], .words [],
    .words ['b', 'c']]).2 = ['c'] := by decide

end CarryOn

end LocalSpace
