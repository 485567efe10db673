import Mathlib.Data.List.TakeWhile
import LocalSpace.Library.Words
import LocalSpace.Counting

/-!
# The part of a file that is read

`text_file.rs`'s `read_within`: all of a text that fits, or the longest start that fits, cut at the
last line break in its last tenth. The scan stops at the first start that is over, and the count
falls where a digit comes after spaces, so it is the longest only where that brings no start back
within what may be taken.
-/

namespace LocalSpace.TextFiles

open Prompts Library

/-- How much of a file the model reads. -/
structure Read where
  chars : ℕ
  words : ℕ
  tokens : ℕ

def isCjk (c : Char) : Bool :=
  (0x3040 ≤ c.toNat ∧ c.toNat ≤ 0x30FF) ∨ (0x3400 ≤ c.toNat ∧ c.toNat ≤ 0x4DBF) ∨
    (0x4E00 ≤ c.toNat ∧ c.toNat ≤ 0x9FFF) ∨ (0xF900 ≤ c.toNat ∧ c.toNat ≤ 0xFAFF)

/-- The words in a text, as a person would count them. -/
@[grind =]
def words (text : String) : ℕ :=
  ((Words.words (fun c => !isWhitespace c) text.toList).map fun word =>
    match (word.filter isCjk).length with
    | 0 => 1
    | n => n).sum

/-- The scan: the characters counted before the first start that is over. -/
def fitting (isNumeric : Char → Bool) (tokens : ℕ) : Counted → List Char → List Char
  | _, [] => []
  | counted, c :: rest =>
    if tokens < (counted.add isNumeric c).tokens then []
    else c :: fitting isNumeric tokens (counted.add isNumeric c) rest

/-- Cut at the last line break, where it is in the last tenth. -/
def endAtLine (part : List Char) : List Char :=
  match (part.reverse.dropWhile (· ≠ '\n')).reverse with
  | [] => part
  | line => if byteLength part * 9 ≤ (byteLength line - 1) * 10 then line else part

/-- The part of a text that fits. -/
@[grind =]
def readWithin (T : Texts) (text : String) (tokens : ℕ) : Read :=
  if tokensOf T text ≤ tokens then ⟨text.toList.length, words text, tokensOf T text⟩
  else
    let part := endAtLine (fitting T.isNumeric tokens {} text.toList)
    ⟨part.length, words (String.ofList part), tokensOf T (String.ofList part)⟩

/-- The first characters of a text. -/
@[grind =]
def firstChars (text : String) (chars : ℕ) : String :=
  String.ofList (text.toList.take chars)

/-! ### The scan -/

section Scan

variable {isNumeric : Char → Bool} {limit : ℕ} {text part : List Char}

/-- What a start of a text costs. -/
@[grind =]
def startCost (isNumeric : Char → Bool) (text : List Char) (n : ℕ) : ℕ :=
  (countOf isNumeric (text.take n)).tokens

theorem startCost_zero (isNumeric : Char → Bool) (text : List Char) :
    startCost isNumeric text 0 = 0 := by
  simp [startCost, countOf, Counted.tokens, Counted.cost, divCeil]

theorem countOf_concat (text : List Char) (c : Char) :
    countOf isNumeric (text ++ [c]) = (countOf isNumeric text).add isNumeric c := by
  rw [countOf, countOf, List.foldl_concat]

/-- What the scan passes fits, every start of it, and one character more does not. -/
theorem fitting_spec (before : List Char) :
    ∃ n, n ≤ text.length ∧ fitting isNumeric limit (countOf isNumeric before) text = text.take n ∧
      (∀ k, 0 < k → k ≤ n → (countOf isNumeric (before ++ text.take k)).tokens ≤ limit) ∧
      (n < text.length → limit < (countOf isNumeric (before ++ text.take (n + 1))).tokens) := by
  induction text generalizing before with
  | nil => exact ⟨0, le_rfl, rfl, fun k hk hle => by omega, fun h => absurd h (Nat.lt_irrefl 0)⟩
  | cons c rest ih =>
    rw [fitting, ← countOf_concat]
    split
    · next hover =>
      refine ⟨0, Nat.zero_le _, rfl, fun k hk hle => by omega, fun _ => ?_⟩
      simpa using hover
    · next hfits =>
      obtain ⟨n, hn, heq, hstarts, hnext⟩ := ih (before ++ [c])
      have htake : ∀ k, before ++ (c :: rest).take (k + 1) = before ++ [c] ++ rest.take k := by
        intro k
        rw [List.take_succ_cons, List.append_assoc, List.singleton_append]
      refine ⟨n + 1, Nat.succ_le_succ hn, by rw [heq, List.take_succ_cons], ?_, fun h => ?_⟩
      · rintro (_ | k) hpos hle
        · exact absurd hpos (Nat.lt_irrefl 0)
        · rw [htake]
          rcases Nat.eq_zero_or_pos k with rfl | hk
          · rw [List.take_zero, List.append_nil]
            exact Nat.le_of_not_lt hfits
          · exact hstarts k hk (Nat.le_of_succ_le_succ hle)
      · rw [htake]
        exact hnext (Nat.lt_of_succ_lt_succ h)

/-- The end of what is passed: all starts up to it fit, and the next is over. -/
theorem fitting_end (isNumeric : Char → Bool) (limit : ℕ) (text : List Char) :
    ∃ n, n ≤ text.length ∧ fitting isNumeric limit {} text = text.take n ∧
      (∀ k, k ≤ n → startCost isNumeric text k ≤ limit) ∧
      (n < text.length → limit < startCost isNumeric text (n + 1)) := by
  obtain ⟨n, hn, heq, hstarts, hnext⟩ := @fitting_spec isNumeric limit text []
  refine ⟨n, hn, heq, fun k hk => ?_, hnext⟩
  rcases Nat.eq_zero_or_pos k with rfl | hpos
  · rw [startCost_zero]
    exact Nat.zero_le _
  · exact hstarts k hpos hk

/-- A digit after spaces brings a start that was over back within the limit. -/
def Recovers (isNumeric : Char → Bool) (text : List Char) (limit : ℕ) : Prop :=
  ∃ before space digit after, text = before ++ space :: digit :: after ∧
    Counted.runOf space = .spaces ∧ (Counted.digitOf isNumeric digit).isSome ∧
    limit < (countOf isNumeric (before ++ [space])).tokens ∧
    (countOf isNumeric (before ++ [space, digit])).tokens ≤ limit

/-- A start that is over is over with a character more, but for a digit after spaces. -/
theorem over_succ (hnot : ¬ Recovers isNumeric text limit) {n : ℕ} (hn : n < text.length)
    (hover : limit < startCost isNumeric text n) : limit < startCost isNumeric text (n + 1) := by
  have hcount : countOf isNumeric (text.take (n + 1)) =
      (countOf isNumeric (text.take n)).add isNumeric text[n] := by
    rw [← countOf_concat, List.take_concat_get']
  by_contra hback
  have hdigit : ¬ (Counted.digitOf isNumeric text[n] = none ∨
      (countOf isNumeric (text.take n)).run ≠ .spaces) := by
    intro h
    have hle := Counted.tokens_le_add h
    rw [← hcount] at hle
    exact hback (hover.trans_le hle)
  rw [not_or, not_not] at hdigit
  obtain ⟨hdigit, hspaces⟩ := hdigit
  rcases n with _ | n
  · cases hspaces
  · -- the last character of the start that is over is a space
    have hlast : text.take (n + 1) = text.take n ++ [text[n]] := (List.take_concat_get' ..).symm
    have hrun : Counted.runOf text[n] = .spaces := by
      rw [hlast, countOf_concat] at hspaces
      rw [← Counted.run_add (by rw [hspaces]; nofun), hspaces]
    refine hnot ⟨text.take n, text[n], text[n + 1], text.drop (n + 2), ?_, hrun,
      Option.ne_none_iff_isSome.mp hdigit, ?_, ?_⟩
    · rw [List.getElem_cons_drop, List.getElem_cons_drop, List.take_append_drop]
    · rw [← hlast]
      exact hover
    · have hpair : text.take n ++ [text[n], text[n + 1]] = text.take (n + 1 + 1) := by
        rw [← List.take_concat_get' text (n + 1) hn, hlast, List.append_assoc]
        rfl
      rw [hpair]
      exact Nat.le_of_not_lt hback

/-- The longest start that fits. -/
def Longest (isNumeric : Char → Bool) (text : List Char) (limit n : ℕ) : Prop :=
  n ≤ text.length ∧ startCost isNumeric text n ≤ limit ∧
    ∀ k, n < k → k ≤ text.length → limit < startCost isNumeric text k

/-- Where no digit brings a start back, what is over stays over. -/
theorem longest_of_over (hnot : ¬ Recovers isNumeric text limit) {n : ℕ} (hn : n ≤ text.length)
    (hfits : startCost isNumeric text n ≤ limit)
    (hnext : n < text.length → limit < startCost isNumeric text (n + 1)) :
    Longest isNumeric text limit n := by
  refine ⟨hn, hfits, fun k hk => ?_⟩
  induction k, hk using Nat.le_induction with
  | base => exact fun hle => hnext hle
  | succ k hk ih => exact fun hle => over_succ hnot hle (ih (by omega))

theorem endAtLine_none (h : '\n' ∉ part) : endAtLine part = part := by
  have hdrop : part.reverse.dropWhile (· ≠ '\n') = [] := by
    rw [List.dropWhile_eq_nil_iff]
    intro c hc
    have hne : c ≠ '\n' := fun heq => h (heq ▸ List.mem_reverse.mp hc)
    simpa using hne
  rw [endAtLine, hdrop]
  rfl

theorem endAtLine_split {before after : List Char} (h : '\n' ∉ after) :
    endAtLine (before ++ '\n' :: after) =
      if byteLength (before ++ '\n' :: after) * 9 ≤ byteLength before * 10 then before ++ ['\n']
      else before ++ '\n' :: after := by
  have hdrop : (before ++ '\n' :: after).reverse.dropWhile (· ≠ '\n') =
      '\n' :: before.reverse := by
    rw [List.reverse_append, List.reverse_cons, List.append_assoc, List.singleton_append,
      List.dropWhile_append_of_pos, List.dropWhile_cons_of_neg (by simp)]
    intro c hc
    have hne : c ≠ '\n' := fun heq => h (heq ▸ List.mem_reverse.mp hc)
    simpa using hne
  have hline : ('\n' :: before.reverse).reverse = before ++ ['\n'] := by simp
  have hbytes : byteLength (before ++ ['\n']) - 1 = byteLength before := by
    rw [byteLength_append]
    rfl
  rw [endAtLine, hdrop, hline]
  split
  · next hnil => simp at hnil
  · rw [hbytes]

/-- A text up to its last line break, and what comes after it. -/
theorem exists_last_line (h : '\n' ∈ part) :
    ∃ before after, part = before ++ '\n' :: after ∧ '\n' ∉ after := by
  obtain ⟨after, before, hsplit, hno⟩ := List.eq_append_cons_of_mem (List.mem_reverse.mpr h)
  refine ⟨before.reverse, after.reverse, ?_, by simpa using hno⟩
  have hback := congrArg List.reverse hsplit
  simpa using hback

/-- What is passed is left as it is, or ends after a line break in its last tenth. -/
theorem endAtLine_cases (part : List Char) :
    endAtLine part = part ∨ ∃ before after, part = before ++ '\n' :: after ∧
      endAtLine part = before ++ ['\n'] ∧ byteLength part * 9 ≤ byteLength before * 10 := by
  by_cases h : '\n' ∈ part
  · obtain ⟨before, after, rfl, hno⟩ := exists_last_line h
    rw [endAtLine_split hno]
    split
    · next htenth => exact .inr ⟨before, after, rfl, rfl, htenth⟩
    · exact .inl rfl
  · exact .inl (endAtLine_none h)

/-- Where a line break is in the last tenth, what is left ends in one, no earlier. -/
theorem endAtLine_near {before after : List Char}
    (htenth : byteLength (before ++ '\n' :: after) * 9 ≤ byteLength before * 10) :
    ∃ more, endAtLine (before ++ '\n' :: after) = before ++ more ∧ more.getLast? = some '\n' := by
  by_cases h : '\n' ∈ after
  · obtain ⟨between, last, rfl, hno⟩ := exists_last_line h
    have hsplit : before ++ '\n' :: (between ++ '\n' :: last) =
        (before ++ '\n' :: between) ++ '\n' :: last := by simp
    rw [hsplit] at htenth ⊢
    rw [endAtLine_split hno, if_pos]
    · exact ⟨'\n' :: between ++ ['\n'], by rw [List.append_assoc], List.getLast?_concat⟩
    · have hle : byteLength before ≤ byteLength (before ++ '\n' :: between) := by
        rw [byteLength_append]
        exact Nat.le_add_right _ _
      omega
  · rw [endAtLine_split h, if_pos htenth]
    exact ⟨['\n'], rfl, rfl⟩

end Scan

/-! ### What is read -/

section Reads

variable {T : Texts} {text : String} {limit : ℕ} {read : Read}

/-- A start that ends at a line break, and gives up at most a tenth of what fits. -/
def EndsNear (text : List Char) (n e : ℕ) : Prop :=
  n ≤ e ∧ (text.take n).getLast? = some '\n' ∧
    byteLength (text.take e) * 9 ≤ byteLength (text.take n) * 10

/-- What is read of a text: a start of it, its own tokens and words, within the limit; all of it
where that fits, and otherwise the longest start that does, or one that ends at a line break near
it. -/
structure ReadsLongest (T : Texts) (text : String) (limit : ℕ) (read : Read) : Prop where
  within : read.chars ≤ text.toList.length
  tokens : read.tokens = tokensOf T (firstChars text read.chars)
  words : read.words = words (firstChars text read.chars)
  fits : read.tokens ≤ limit
  whole : tokensOf T text ≤ limit → read.chars = text.toList.length
  longest : limit < tokensOf T text → ∃ e, Longest T.isNumeric text.toList limit e ∧
    (read.chars = e ∨ EndsNear text.toList read.chars e)

/-- Before the first start that is over, a line break ends one near the longest that fits. -/
def BreaksNear (isNumeric : Char → Bool) (text : List Char) (limit : ℕ) : Prop :=
  ∃ n e, (∀ k, k ≤ n → startCost isNumeric text k ≤ limit) ∧ Longest isNumeric text limit e ∧
    EndsNear text n e

theorem tokensOf_firstChars (text : String) (n : ℕ) :
    tokensOf T (firstChars text n) = startCost T.isNumeric text.toList n := by
  rw [tokensOf, firstChars, String.toList_ofList]
  rfl

theorem startCost_length (text : String) :
    startCost T.isNumeric text.toList text.toList.length = tokensOf T text := by
  rw [startCost, List.take_length]
  rfl

theorem firstChars_length (text : String) : firstChars text text.toList.length = text := by
  rw [firstChars, List.take_length, String.ofList_toList]

/-- Where the text is too long, what is read: all starts up to its end fit, and it is the end of the
scan, or ends at a line break near this. -/
theorem readWithin_cut (h : limit < tokensOf T text) :
    ∃ n e, n ≤ e ∧ e < text.toList.length ∧
      (∀ k, k ≤ e → startCost T.isNumeric text.toList k ≤ limit) ∧
      limit < startCost T.isNumeric text.toList (e + 1) ∧
      readWithin T text limit = ⟨n, words (firstChars text n), tokensOf T (firstChars text n)⟩ ∧
      text.toList.take n = endAtLine (text.toList.take e) := by
  obtain ⟨e, he, hscan, hstarts, hnext⟩ := fitting_end T.isNumeric limit text.toList
  have hlt : e < text.toList.length := by
    refine lt_of_le_of_ne he fun heq => ?_
    have hall := hstarts e le_rfl
    rw [heq, startCost_length] at hall
    omega
  obtain ⟨n, hn, hpart⟩ : ∃ n, n ≤ e ∧ endAtLine (text.toList.take e) = text.toList.take n := by
    rcases endAtLine_cases (text.toList.take e) with heq | ⟨before, after, hsplit, heq, -⟩
    · exact ⟨e, le_rfl, heq⟩
    · have hlength := congrArg List.length hsplit
      rw [List.length_take, List.length_append, List.length_cons] at hlength
      refine ⟨before.length + 1, by omega, ?_⟩
      have htake : text.toList.take (before.length + 1) =
          (text.toList.take e).take (before.length + 1) := by
        rw [List.take_take, Nat.min_eq_left (by omega)]
      have hline : before ++ '\n' :: after = (before ++ ['\n']) ++ after := by simp
      rw [heq, htake, hsplit, hline, List.take_left' (by simp)]
  refine ⟨n, e, hn, hlt, hstarts, hnext hlt, ?_, hpart.symm⟩
  rw [readWithin, if_neg (Nat.not_le.mpr h), hscan, hpart]
  dsimp only
  rw [← firstChars, List.length_take, Nat.min_eq_left (by omega)]

/-- What is read is no more than may be taken. -/
theorem readWithin_le (T : Texts) (text : String) (limit : ℕ) :
    tokensOf T (firstChars text (readWithin T text limit).chars) ≤ limit := by
  rcases Nat.lt_or_ge limit (tokensOf T text) with h | h
  · obtain ⟨n, e, hn, -, hstarts, -, hread, -⟩ := readWithin_cut h
    rw [hread, tokensOf_firstChars]
    exact hstarts n hn
  · rw [readWithin, if_pos h, firstChars_length]
    exact h

theorem length_le_byteLength (l : List Char) : l.length ≤ byteLength l := by
  induction l with
  | nil => exact le_rfl
  | cons c rest ih =>
    have hpos := Char.utf8Size_pos c
    rw [byteLength_cons, List.length_cons]
    omega

/-- A longer start has more bytes, one for each character more at least. -/
theorem byteLength_take {l : List Char} {a b : ℕ} (hab : a ≤ b) (hb : b ≤ l.length) :
    byteLength (l.take a) + (b - a) ≤ byteLength (l.take b) := by
  have hsplit : l.take b = l.take a ++ (l.take b).drop a := by
    conv_lhs => rw [← List.take_append_drop a (l.take b), List.take_take, Nat.min_eq_left hab]
  have hlength := length_le_byteLength ((l.take b).drop a)
  rw [List.length_drop, List.length_take] at hlength
  rw [hsplit, byteLength_append]
  omega

/-- What is given up of a text that is too long, at most: it is read to the end of the scan, or to
a line break near it. -/
theorem readWithin_near (h : limit < tokensOf T text) {e : ℕ}
    (hlongest : Longest T.isNumeric text.toList limit e)
    (hnext : ∀ k, k ≤ e → startCost T.isNumeric text.toList k ≤ limit) :
    (readWithin T text limit).chars = e ∨
      EndsNear text.toList (readWithin T text limit).chars e := by
  obtain ⟨n, e', hn, hlt, hstarts, hover, hread, hpart⟩ := readWithin_cut h
  have heq : e = e' := by
    have hle : e ≤ e' := by
      by_contra hless
      have hfits := hnext (e' + 1) (by omega)
      omega
    by_contra hne
    have hover' := hlongest.2.2 e' (by omega) hlt.le
    have hfits := hstarts e' le_rfl
    omega
  subst heq
  rw [hread]
  rcases endAtLine_cases (text.toList.take e) with hwhole | ⟨before, after, hsplit, hline, htenth⟩
  · left
    have hlength := congrArg List.length (hpart.trans hwhole)
    rw [List.length_take, List.length_take] at hlength
    dsimp only
    omega
  · right
    refine ⟨hn, ?_, ?_⟩
    · dsimp only
      rw [hpart, hline, List.getLast?_concat]
    · dsimp only
      rw [hpart, hline, byteLength_append]
      omega

/-- **The part of a file that is read is the longest that fits**, its own tokens and words counted,
and within the limit, exactly where the text fits, or no digit after spaces brings a start that was
over back within the limit, or a line break, before any start is over, ends one near the longest. -/
theorem reads_longest_iff (T : Texts) (text : String) (limit : ℕ) :
    ReadsLongest T text limit (readWithin T text limit) ↔
      tokensOf T text ≤ limit ∨ ¬ Recovers T.isNumeric text.toList limit ∨
        BreaksNear T.isNumeric text.toList limit := by
  rcases Nat.lt_or_ge limit (tokensOf T text) with h | h
  · obtain ⟨n, e', hn, hlt, hstarts, hover, hread, hpart⟩ := readWithin_cut h
    constructor
    · intro hreads
      obtain ⟨e, hlongest, hends⟩ := hreads.longest h
      rw [hread] at hends
      right
      by_contra hnot
      rw [not_or, not_not] at hnot
      obtain ⟨⟨before, space, digit, after, hall, -, -, hlost, hback⟩, hbreaks⟩ := hnot
      rcases hends with hends | hends
      · -- the scan's end would be the longest, and the digit's start fits and is longer
        have hpair : before ++ [space, digit] = text.toList.take (before.length + 2) := by
          rw [hall]
          simp [List.take_append]
        have hfirst : before ++ [space] = text.toList.take (before.length + 1) := by
          rw [hall]
          simp [List.take_append]
        have hlength : before.length + 2 ≤ text.toList.length := by
          rw [hall]
          simp
        rw [hpair] at hback
        rw [hfirst] at hlost
        have hlate : e' < before.length + 1 := by
          by_contra hless
          have hfits := hstarts (before.length + 1) (by omega)
          rw [startCost] at hfits
          omega
        dsimp only at hends
        have hover := hlongest.2.2 (before.length + 2) (by omega) hlength
        rw [startCost] at hover
        omega
      · exact hbreaks ⟨n, e, fun k hk => hstarts k (hk.trans hn), hlongest, hends⟩
    · intro hcond
      have hnear : ∃ e, Longest T.isNumeric text.toList limit e ∧
          (n = e ∨ EndsNear text.toList n e) := by
        have hscanned : Longest T.isNumeric text.toList limit e' →
            ∃ e, Longest T.isNumeric text.toList limit e ∧
              (n = e ∨ EndsNear text.toList n e) := by
          intro hlongest
          have hends := readWithin_near h hlongest hstarts
          rw [hread] at hends
          exact ⟨e', hlongest, hends⟩
        rcases hcond with hle | hnot | ⟨p, e, hp, hlongest, hpe, hline, htenth⟩
        · omega
        · exact hscanned (longest_of_over hnot hlt.le (hstarts e' le_rfl) fun _ => hover)
        · rcases Nat.lt_trichotomy e' e with hless | rfl | hmore
          · -- the longest is past the scan's end; what is read ends at a line break near it
            have hpe' : p ≤ e' := by
              by_contra hpast
              have hfits := hp (e' + 1) (by omega)
              omega
            obtain ⟨before, hbefore⟩ := List.getLast?_eq_some_iff.mp hline
            have hpast : e' + 2 ≤ e := by
              by_contra hnext
              have heq : e = e' + 1 := by omega
              have hfits := hlongest.2.1
              rw [heq] at hfits
              omega
            have hsplit : text.toList.take e' =
                before ++ '\n' :: (text.toList.take e').drop p := by
              conv_lhs => rw [← List.take_append_drop p (text.toList.take e'), List.take_take,
                Nat.min_eq_left hpe', hbefore, List.append_assoc, List.singleton_append]
            have hbytes := byteLength_take (l := text.toList) hless.le hlongest.1
            have hbytesp : byteLength (text.toList.take p) = byteLength before + 1 := by
              rw [hbefore, byteLength_append]
              rfl
            obtain ⟨more, hends, hlast⟩ := @endAtLine_near before ((text.toList.take e').drop p) (by
              rw [← hsplit]
              omega)
            rw [← hsplit, ← hpart] at hends
            have hpn : p ≤ n := by
              have hlengthp := congrArg List.length hbefore
              have hlengthn := congrArg List.length hends
              have hmore : more ≠ [] := by
                rintro rfl
                cases hlast
              have hpos := List.length_pos_of_ne_nil hmore
              simp only [List.length_take, List.length_append, List.length_singleton] at hlengthp
              simp only [List.length_take, List.length_append] at hlengthn
              omega
            have hbytesn := byteLength_take (l := text.toList) hpn (by omega)
            refine ⟨e, hlongest, .inr ⟨by omega, ?_, by omega⟩⟩
            rw [hends, List.getLast?_append, hlast]
            rfl
          · exact hscanned hlongest
          · have hlost := hlongest.2.2 e' hmore hlt.le
            have hfits := hstarts e' le_rfl
            omega
      rw [hread]
      refine ⟨by dsimp only; omega, rfl, rfl, ?_, fun hle => by omega, fun _ => hnear⟩
      dsimp only
      rw [tokensOf_firstChars]
      exact hstarts n hn
  · have hwhole : readWithin T text limit = ⟨text.toList.length, words text, tokensOf T text⟩ := by
      rw [readWithin, if_pos h]
    rw [hwhole]
    refine iff_of_true ⟨le_rfl, ?_, ?_, h, fun _ => rfl, fun hover => by omega⟩ (.inl h)
    · rw [firstChars_length]
    · rw [firstChars_length]

/-- Figures in columns: ten digits, and three more after a wide gap. -/
def columns : String :=
  String.ofList (List.replicate 10 '1' ++ List.replicate 41 ' ' ++ List.replicate 3 '1')

/-- Of the figures the scan leaves out two that fit. -/
theorem columns_cut : ¬ ReadsLongest asciiTexts columns 15 (readWithin asciiTexts columns 15) := by
  have hread : (readWithin asciiTexts columns 15).chars = 31 := by decide
  have hfits : startCost asciiTexts.isNumeric columns.toList 53 ≤ 15 := by decide
  intro h
  obtain ⟨e, ⟨-, -, hover⟩, hends⟩ := h.longest (by decide)
  rw [hread] at hends
  rcases hends with rfl | ⟨-, hline, -⟩
  · have hlost := hover 53 (by omega) (by decide)
    omega
  · revert hline
    decide

end Reads

end LocalSpace.TextFiles
