import Mathlib.Data.List.Infix
import LocalSpace.Library.Decimal

/-!
# Formulas in an answer

`maths.ts`: the formulas of an answer's prose are lifted out of it before its Markdown is parsed,
and a placeholder is left in the place of each. The regular expression `TOKEN` is a scan that tries
its five alternatives at each character (`token`); lines between fences are left out of it
(`extractMaths`).

Whatever the answer, the placeholders are numbered as the formulas are, and putting back what was
lifted out gives the answer again, but for the two marks that no answer is shown with.
-/

namespace LocalSpace

namespace Maths

/-- A placeholder's marks, of the private use area. -/
def openMark : Char :=
  Char.ofNat 0xE000

def closeMark : Char :=
  Char.ofNat 0xE001

structure MathsPart where
  tex : List Char
  display : Bool
  deriving DecidableEq

structure WithMaths where
  text : List Char
  parts : List MathsPart
  deriving DecidableEq

/-- What `\s` stands for. -/
def isSpace (c : Char) : Bool :=
  [9, 10, 11, 12, 13, 32, 0xA0, 0x1680, 0x2028, 0x2029, 0x202F, 0x205F, 0x3000, 0xFEFF].contains
      c.toNat ||
    decide (0x2000 ≤ c.toNat ∧ c.toNat ≤ 0x200A)

def trim (l : List Char) : List Char :=
  ((l.dropWhile isSpace).reverse.dropWhile isSpace).reverse

/-! ### `TOKEN` -/

/-- What comes before the first place where a text stands (`[\s\S]*?` before it). -/
def upTo (stop : List Char) : List Char → Option (List Char)
  | [] => none
  | c :: l => if stop.isPrefixOf (c :: l) then some [] else (upTo stop l).map (c :: ·)

/-- Code between two runs of so many backticks, or of fewer. -/
def codeOf (l : List Char) : ℕ → Option (List Char)
  | 0 => none
  | k + 1 =>
    let ticks := List.replicate (k + 1) '`'
    match upTo ticks (l.drop (k + 1)) with
    | some code => some (ticks ++ code ++ ticks)
    -- the expression goes back to a shorter run
    | none => codeOf l k

/-- What stands between two marks, at least a character. -/
def between (opener closer l : List Char) : Option (List Char) :=
  if opener.isPrefixOf l then
    match l.drop opener.length with
    | c :: rest => (upTo closer rest).map (c :: ·)
    | [] => none
  else none

/-- Up to the first `$` that closes a formula within a sentence. -/
def upToDollar : List Char → Option (List Char)
  | x :: y :: rest =>
    -- before a digit the `$` is a price's
    if !isSpace x && y == '$' && !rest.head?.any Char.isDigit then some [x]
    else if x == '$' || x == '\n' then none
    else (upToDollar (y :: rest)).map (x :: ·)
  | _ => none

/-- A formula within a sentence, after the character before it. -/
def sentence (before : Option Char) : List Char → Option (List Char)
  | '$' :: rest =>
    if before == some '\\' || rest.head?.all isSpace then none else upToDollar rest
  | _ => none

/-- What the scan comes to: a character of the prose, a piece of it that stays, or one that is
lifted out. -/
inductive Piece where
  | plain (c : Char)
  | kept (whole : List Char)
  | formula (whole : List Char) (part : MathsPart)
  deriving DecidableEq

namespace Piece

/-- The piece of the answer. -/
@[grind =]
def source : Piece → List Char
  | plain c => [c]
  | kept whole => whole
  | formula whole _ => whole

def whole? : Piece → Option (List Char)
  | formula whole _ => some whole
  | _ => none

@[grind =]
def part? : Piece → Option MathsPart
  | formula _ part => some part
  | _ => none

end Piece

/-- A formula, unless there is nothing in it. -/
def formulaOf (whole content : List Char) (display : Bool) : Piece :=
  let tex := trim content
  if tex = [] then .kept whole else .formula whole ⟨tex, display⟩

/-- The first of the five alternatives that matches here. -/
def token (before : Option Char) (l : List Char) : Option Piece :=
  match codeOf l (l.takeWhile (· == '`')).length with
  | some whole => some (.kept whole)
  | none =>
    match between ['$', '$'] ['$', '$'] l with
    | some content => some (formulaOf (['$', '$'] ++ content ++ ['$', '$']) content true)
    | none =>
      match between ['\\', '['] ['\\', ']'] l with
      | some content => some (formulaOf (['\\', '['] ++ content ++ ['\\', ']']) content true)
      | none =>
        match between ['\\', '('] ['\\', ')'] l with
        | some content => some (formulaOf (['\\', '('] ++ content ++ ['\\', ')']) content false)
        | none =>
          (sentence before l).map fun content =>
            formulaOf (['$'] ++ content ++ ['$']) content false

/-- The matches of `TOKEN` in a text, and what is between them; so many characters are of a match
already. -/
def pieces : ℕ → Option Char → List Char → List Piece
  | _, _, [] => []
  | skip + 1, _, c :: l => pieces skip (some c) l
  | 0, before, c :: l =>
    match token before (c :: l) with
    | some piece => piece :: pieces (piece.source.length - 1) (some c) l
    | none => .plain c :: pieces 0 (some c) l

def placeholder (n : ℕ) : List Char :=
  openMark :: Nat.toDigits 10 n ++ [closeMark]

/-- `replace`: each formula is kept in `parts`, and a placeholder stands for it. -/
def replace (parts : List MathsPart) : List Piece → List Char × List MathsPart
  | [] => ([], parts)
  | .formula _ part :: rest =>
    let (text, all) := replace (parts ++ [part]) rest
    (placeholder parts.length ++ text, all)
  | piece :: rest =>
    let (text, all) := replace parts rest
    (piece.source ++ text, all)

def lift (parts : List MathsPart) (prose : List Char) : List Char × List MathsPart :=
  replace parts (pieces 0 none prose)

/-! ### Lines -/

/-- The run of marks that opens or closes a fence (`FENCE`). -/
def fenceMark (line : List Char) : Option (List Char) :=
  let spaces := (line.takeWhile (· == ' ')).length
  let rest := line.drop spaces
  let ticks := rest.takeWhile (· == '`')
  let tildes := rest.takeWhile (· == '~')
  if 3 < spaces then none
  else if 3 ≤ ticks.length then some ticks
  else if 3 ≤ tildes.length then some tildes
  else none

@[grind =]
def join (lines : List (List Char)) : List Char :=
  ['\n'].intercalate lines

structure Reading where
  out : List (List Char)
  prose : List (List Char)
  fence : Option (List Char)
  parts : List MathsPart

namespace Reading

def flush (r : Reading) : Reading :=
  if r.prose = [] then r
  else
    let (text, parts) := lift r.parts (join r.prose)
    { r with out := r.out ++ [text], prose := [], parts }

def line (r : Reading) (line : List Char) : Reading :=
  match r.fence, fenceMark line with
  | none, some mark => { r.flush with out := r.flush.out ++ [line], fence := some mark }
  | some fence, mark =>
    let closes := mark.any fun mark => mark.head? == fence.head? && fence.length ≤ mark.length
    { r with out := r.out ++ [line], fence := if closes then none else some fence }
  | none, none => { r with prose := r.prose ++ [line] }

end Reading

def withoutMarks (source : List Char) : List Char :=
  source.filter fun c => c != openMark && c != closeMark

def extractMaths (source : List Char) : WithMaths :=
  let lines := (withoutMarks source).splitOn '\n'
  let read := (lines.foldl Reading.line ⟨[], [], none, []⟩).flush
  ⟨join read.out, read.parts⟩

/-! ### `splitAtMaths` -/

/-- The digits of a placeholder that begins here. -/
def mark : List Char → Option (List Char)
  | [] => none
  | c :: l =>
    let digits := l.takeWhile Char.isDigit
    if c == openMark && !digits.isEmpty && (l.drop digits.length).head? == some closeMark then
      some digits
    else none

/-- A piece of text, or a formula's number. -/
inductive Slice where
  | text (l : List Char)
  | number (n : ℕ)
  deriving DecidableEq

def textOf (l : List Char) : List Slice :=
  if l = [] then [] else [.text l]

/-- The pieces of what is left, after the text that began before it; so many characters are of a
placeholder already. -/
@[grind =]
def splitFrom : ℕ → List Char → List Char → List Slice
  | _, text, [] => textOf text
  | skip + 1, text, _ :: l => splitFrom skip text l
  | 0, text, c :: l =>
    match mark (c :: l) with
    | some digits =>
      textOf text ++ .number (Nat.ofDigitChars 10 digits 0) :: splitFrom (digits.length + 1) [] l
    | none => splitFrom 0 (text ++ [c]) l

def splitAtMaths (text : List Char) : List Slice :=
  splitFrom 0 [] text

example : extractMaths "a $x$ b".toList =
    ⟨'a' :: ' ' :: openMark :: '0' :: closeMark :: ' ' :: ['b'], [⟨['x'], false⟩]⟩ := by
  decide +kernel

/-! ### What a match is of the text -/

section Matches

variable {stop opener closer l content whole : List Char} {before : Option Char} {k : ℕ} {p : Piece}

theorem upTo_begins (h : upTo stop l = some content) : content ++ stop <+: l := by
  induction l generalizing content with
  | nil => cases h
  | cons c l ih =>
    rw [upTo] at h
    split at h
    · next hstop =>
      obtain rfl := Option.some.inj h
      exact List.isPrefixOf_iff_prefix.mp hstop
    · obtain ⟨rest, hrest, rfl⟩ := Option.map_eq_some_iff.mp h
      exact (List.prefix_cons_inj c).mpr (ih hrest)

theorem replicate_begins (h : k ≤ (l.takeWhile (· == '`')).length) :
    List.replicate k '`' <+: l := by
  induction k generalizing l with
  | zero => exact List.nil_prefix
  | succ k ih =>
    cases l with
    | nil => cases h
    | cons c l =>
      by_cases hc : c = '`'
      · subst hc
        exact (List.prefix_cons_inj _).mpr (ih (by simpa using h))
      · simp [hc] at h

theorem codeOf_begins (h : codeOf l k = some whole) (hk : k ≤ (l.takeWhile (· == '`')).length) :
    whole <+: l ∧ whole ≠ [] := by
  induction k with
  | zero => cases h
  | succ k ih =>
    rw [codeOf] at h
    split at h
    · next code hcode =>
      obtain rfl := Option.some.inj h
      obtain ⟨rest, hrest⟩ := replicate_begins hk
      have htail : code ++ List.replicate (k + 1) '`' <+: rest := by
        have hdrop : l.drop (k + 1) = rest := by
          rw [← hrest, List.drop_left' List.length_replicate]
        exact hdrop ▸ upTo_begins hcode
      refine ⟨?_, by simp⟩
      rw [← hrest, List.append_assoc]
      exact (List.prefix_append_right_inj _).mpr htail
    · exact ih h (Nat.le_of_succ_le hk)

theorem between_begins (h : between opener closer l = some content) :
    opener ++ content ++ closer <+: l := by
  rw [between] at h
  split at h
  · next hopener =>
    obtain ⟨rest, hrest⟩ := List.isPrefixOf_iff_prefix.mp hopener
    rw [← hrest, List.drop_left] at h
    cases rest with
    | nil => cases h
    | cons c rest =>
      obtain ⟨inner, hinner, rfl⟩ := Option.map_eq_some_iff.mp h
      rw [← hrest, List.append_assoc]
      exact (List.prefix_append_right_inj _).mpr ((List.prefix_cons_inj c).mpr (upTo_begins hinner))
  · cases h

theorem upToDollar_begins (h : upToDollar l = some content) : content ++ ['$'] <+: l := by
  induction l generalizing content with
  | nil => cases h
  | cons x l ih =>
    cases l with
    | nil => cases h
    | cons y rest =>
      rw [upToDollar] at h
      split_ifs at h with hcloses hends
      · obtain rfl := Option.some.inj h
        have hy : y = '$' := by
          simp only [Bool.and_eq_true, beq_iff_eq] at hcloses
          exact hcloses.1.2
        rw [hy]
        exact ⟨rest, rfl⟩
      · obtain ⟨inner, hinner, rfl⟩ := Option.map_eq_some_iff.mp h
        exact (List.prefix_cons_inj x).mpr (ih hinner)

theorem sentence_begins (h : sentence before l = some content) :
    ['$'] ++ content ++ ['$'] <+: l := by
  rw [sentence.eq_def] at h
  split at h
  · split_ifs at h
    exact (List.prefix_cons_inj '$').mpr (upToDollar_begins h)
  · cases h

/-- A formula with its delimiters, and what is kept of it. -/
def Delimited (whole : List Char) (part : MathsPart) : Prop :=
  ∃ opener content closer, whole = opener ++ content ++ closer ∧ trim content = part.tex ∧
    part.tex ≠ [] ∧ (opener, closer, part.display) ∈
      [(['$', '$'], ['$', '$'], true), (['\\', '['], ['\\', ']'], true),
        (['\\', '('], ['\\', ')'], false), (['$'], ['$'], false)]

/-- What a match leaves out of the text is a formula. -/
def Piece.Fair : Piece → Prop
  | .formula whole part => Delimited whole part
  | _ => True

theorem formulaOf_fair {display : Bool} (hwhole : whole = opener ++ content ++ closer)
    (hmem : (opener, closer, display) ∈
      [(['$', '$'], ['$', '$'], true), (['\\', '['], ['\\', ']'], true),
        (['\\', '('], ['\\', ')'], false), (['$'], ['$'], false)]) :
    (formulaOf whole content display).source = whole ∧ (formulaOf whole content display).Fair := by
  rw [formulaOf]
  split
  · exact ⟨rfl, trivial⟩
  · next htex => exact ⟨rfl, opener, content, closer, hwhole, rfl, htex, hmem⟩

theorem token_spec (h : token before l = some p) :
    p.source <+: l ∧ p.source ≠ [] ∧ p.Fair := by
  have hformula : ∀ {opener closer content display},
      (opener, closer, display) ∈
        [(['$', '$'], ['$', '$'], true), (['\\', '['], ['\\', ']'], true),
          (['\\', '('], ['\\', ')'], false), (['$'], ['$'], false)] →
      opener ++ content ++ closer <+: l → opener ≠ [] →
      (formulaOf (opener ++ content ++ closer) content display).source <+: l ∧
        (formulaOf (opener ++ content ++ closer) content display).source ≠ [] ∧
        (formulaOf (opener ++ content ++ closer) content display).Fair := by
    intro opener closer content display hmem hbegins hne
    have hwhole : opener ++ content ++ closer = opener ++ content ++ closer := rfl
    obtain ⟨hsource, hfair⟩ := formulaOf_fair hwhole hmem
    rw [hsource]
    exact ⟨hbegins, by simp [hne], hfair⟩
  rw [token] at h
  split at h
  · next whole hcode =>
    obtain rfl := Option.some.inj h
    obtain ⟨hbegins, hne⟩ := codeOf_begins hcode le_rfl
    exact ⟨hbegins, hne, trivial⟩
  split at h
  · next content hcontent =>
    obtain rfl := Option.some.inj h
    exact hformula (by simp) (between_begins hcontent) (by simp)
  split at h
  · next content hcontent =>
    obtain rfl := Option.some.inj h
    exact hformula (by simp) (between_begins hcontent) (by simp)
  split at h
  · next content hcontent =>
    obtain rfl := Option.some.inj h
    exact hformula (by simp) (between_begins hcontent) (by simp)
  · obtain ⟨content, hcontent, rfl⟩ := Option.map_eq_some_iff.mp h
    exact hformula (by simp) (sentence_begins hcontent) (by simp)

/-- The pieces of a text are all of it. -/
theorem pieces_source (skip : ℕ) (before : Option Char) (l : List Char) :
    (pieces skip before l).flatMap Piece.source = l.drop skip := by
  induction l generalizing skip before with
  | nil => simp [pieces]
  | cons c l ih =>
    cases skip with
    | succ skip =>
      rw [pieces, List.drop_succ_cons]
      exact ih skip (some c)
    | zero =>
      rw [pieces]
      split
      · next piece hpiece =>
        obtain ⟨⟨rest, hrest⟩, hne, -⟩ := token_spec hpiece
        rw [List.flatMap_cons, ih, List.drop_zero]
        obtain ⟨d, source, hsource⟩ := List.exists_cons_of_ne_nil hne
        rw [hsource] at hrest ⊢
        obtain ⟨rfl, hl⟩ := List.cons.inj hrest
        have htail : source ++ rest = l := hl
        rw [List.length_cons, Nat.add_sub_cancel, ← htail, List.drop_left, List.cons_append]
      · rw [List.flatMap_cons, ih, List.drop_zero, List.drop_zero]
        rfl

theorem pieces_fair (skip : ℕ) (before : Option Char) (l : List Char) :
    ∀ p ∈ pieces skip before l, p.Fair := by
  induction l generalizing skip before with
  | nil => simp [pieces]
  | cons c l ih =>
    cases skip with
    | succ skip => exact ih skip (some c)
    | zero =>
      rw [pieces]
      split
      · next piece hpiece =>
        intro p hp
        obtain rfl | hp := List.mem_cons.mp hp
        · exact (token_spec hpiece).2.2
        · exact ih _ _ p hp
      · intro p hp
        obtain rfl | hp := List.mem_cons.mp hp
        · trivial
        · exact ih _ _ p hp

end Matches

/-! ### What the text with placeholders says -/

section Written

variable {l l' text : List Char} {lines lines' : List (List Char)} {ps qs : List Piece} {n : ℕ}
  {parts : List MathsPart}

/-- Pieces as they are written, the formulas numbered from `n`. -/
@[grind =]
def written : ℕ → List Piece → List Char
  | _, [] => []
  | n, .plain c :: rest => c :: written n rest
  | n, .kept whole :: rest => whole ++ written n rest
  | n, .formula _ _ :: rest => placeholder n ++ written (n + 1) rest

theorem replace_eq (parts : List MathsPart) (ps : List Piece) :
    replace parts ps = (written parts.length ps, parts ++ ps.filterMap Piece.part?) := by
  induction ps generalizing parts with
  | nil => simp [replace, written]
  | cons p ps ih =>
    cases p <;> simp [replace, written, ih, List.filterMap_cons, Piece.part?, Piece.source]

theorem written_append (n : ℕ) (ps qs : List Piece) :
    written n (ps ++ qs) =
      written n ps ++ written (n + (ps.filterMap Piece.part?).length) qs := by
  induction ps generalizing n with
  | nil => rfl
  | cons p ps ih =>
    cases p <;>
      simp [written, ih, List.filterMap_cons, Piece.part?, Nat.add_assoc, Nat.add_comm 1]

theorem written_plain (n : ℕ) (l : List Char) : written n (l.map .plain) = l := by
  induction l with
  | nil => rfl
  | cons c l ih => rw [List.map_cons, written, ih]

theorem filterMap_plain (l : List Char) : (l.map Piece.plain).filterMap Piece.part? = [] := by
  induction l with
  | nil => rfl
  | cons c l ih => simp [Piece.part?]

theorem source_plain (l : List Char) : (l.map Piece.plain).flatMap Piece.source = l := by
  induction l with
  | nil => rfl
  | cons c l ih => simp [Piece.source, ih]

theorem join_append (hlines : lines ≠ []) (hlines' : lines' ≠ []) :
    join (lines ++ lines') = join lines ++ '\n' :: join lines' := by
  induction lines with
  | nil => exact absurd rfl hlines
  | cons l rest ih =>
    obtain ⟨l', rest', rfl⟩ := List.exists_cons_of_ne_nil hlines'
    cases rest with
    | nil => simp [join, List.intercalate_cons_cons]
    | cons l₂ rest =>
      have hrest := ih (List.cons_ne_nil l₂ rest)
      simp only [join, List.cons_append, List.intercalate_cons_cons] at hrest ⊢
      rw [hrest]
      simp

/-- What has been read of an answer's lines, as pieces of it. -/
structure Reads (r : Reading) (lines : List (List Char)) (ps : List Piece) : Prop where
  text : join r.out = written 0 ps
  parts : r.parts = ps.filterMap Piece.part?
  source : ∃ read, lines = read ++ r.prose ∧ ps.flatMap Piece.source = join read ∧
    (read = [] ↔ r.out = []) ∧ (r.out = [] → ps = [])
  fair : ∀ p ∈ ps, p.Fair

/-- One more text comes out, with what it is of the answer. -/
theorem Reads.push {r : Reading} {read : List (List Char)} (h : Reads r lines ps)
    (r' : Reading) (qs : List Piece) (lines' : List (List Char))
    (hsource : ps.flatMap Piece.source = join read)
    (hnil : read = [] ↔ r.out = []) (hempty : r.out = [] → ps = [])
    (hout : r'.out = r.out ++ [written r.parts.length qs])
    (hparts : r'.parts = r.parts ++ qs.filterMap Piece.part?)
    (hqs : qs.flatMap Piece.source = join lines') (hlines' : lines' ≠ [])
    (hfair : ∀ p ∈ qs, p.Fair) : ∃ ps', Reads r' (read ++ lines' ++ r'.prose) ps' := by
  have hne : r'.out ≠ [] := by simp [hout]
  have hneRead : read ++ lines' ≠ [] := by simp [hlines']
  by_cases hfirst : r.out = []
  · have hps := hempty hfirst
    have hnone := hnil.mpr hfirst
    refine ⟨qs, ?_, ?_, ⟨read ++ lines', rfl, ?_, by simp [hne, hlines'], fun h => absurd h hne⟩,
      hfair⟩
    · rw [hout, hfirst, h.parts, hps]
      simp [join]
    · rw [hparts, h.parts, hps]
      rfl
    · rw [hqs, hnone, List.nil_append]
  · have hsome : read ≠ [] := fun hnone => hfirst (hnil.mp hnone)
    refine ⟨ps ++ .plain '\n' :: qs, ?_, ?_,
      ⟨read ++ lines', rfl, ?_, by simp [hne, hlines'], fun h => absurd h hne⟩, ?_⟩
    · rw [hout, join_append hfirst (List.cons_ne_nil _ _), h.text, written_append, h.parts]
      simp [written, join]
    · rw [hparts, h.parts, List.filterMap_append]
      rfl
    · rw [List.flatMap_append, List.flatMap_cons, hsource, hqs, join_append hsome hlines']
      rfl
    · intro p hp
      obtain hp | hp := List.mem_append.mp hp
      · exact h.fair p hp
      · obtain rfl | hp := List.mem_cons.mp hp
        · trivial
        · exact hfair p hp

theorem Reads.flush {r : Reading} (h : Reads r lines ps) :
    ∃ ps', Reads r.flush lines ps' ∧ r.flush.prose = [] := by
  obtain ⟨read, hread, hsource, hnil, hempty⟩ := h.source
  rw [Reading.flush]
  split
  · next hprose => exact ⟨ps, h, hprose⟩
  · next hprose =>
    have hlift := replace_eq r.parts (pieces 0 none (join r.prose))
    obtain ⟨ps', hps'⟩ := h.push { r with
        out := r.out ++ [(lift r.parts (join r.prose)).1], prose := [],
        parts := (lift r.parts (join r.prose)).2 } _ _
      hsource hnil hempty (by rw [lift, hlift]) (by rw [lift, hlift])
      (pieces_source 0 none (join r.prose)) hprose (pieces_fair 0 none _)
    rw [hread]
    exact ⟨ps', by simpa using hps', rfl⟩

theorem Reads.line {r : Reading} (h : Reads r lines ps) (line : List Char)
    (hfence : r.fence ≠ none → r.prose = []) :
    ∃ ps', Reads (r.line line) (lines ++ [line]) ps' ∧
      ((r.line line).fence ≠ none → (r.line line).prose = []) := by
  have hout : ∀ {r : Reading} {ps : List Piece} (fence : Option (List Char)), Reads r lines ps →
      r.prose = [] →
      ∃ ps', Reads { r with out := r.out ++ [line], fence } (lines ++ [line]) ps' := by
    intro r ps fence h hprose
    obtain ⟨read, hread, hsource, hnil, hempty⟩ := h.source
    obtain ⟨ps', hps'⟩ := h.push { r with out := r.out ++ [line], fence }
      (line.map .plain) [line] hsource hnil hempty
      (by rw [written_plain]) (by rw [filterMap_plain, List.append_nil])
      (by rw [source_plain]; simp [join]) (List.cons_ne_nil _ _) (by simp [Piece.Fair])
    rw [hprose, List.append_nil] at hread
    rw [hread]
    exact ⟨ps', by simpa [hprose] using hps'⟩
  rw [Reading.line]
  split
  · next mark hnone _ =>
    obtain ⟨ps', hflush, hprose⟩ := h.flush
    obtain ⟨ps'', hps''⟩ := hout (some mark) hflush hprose
    exact ⟨ps'', hps'', fun _ => hprose⟩
  · next fence mark hsome =>
    have hprose := hfence (by rw [hsome]; exact Option.some_ne_none _)
    obtain ⟨ps', hps'⟩ := hout _ h hprose
    exact ⟨ps', hps', fun _ => hprose⟩
  · next hnone _ =>
    obtain ⟨read, hread, hsource, hnil, hempty⟩ := h.source
    refine ⟨ps, ⟨h.text, h.parts, ⟨read, ?_, hsource, hnil, hempty⟩, h.fair⟩,
      fun hsome => absurd hnone hsome⟩
    rw [hread, List.append_assoc]

/-- An answer with its formulas lifted out is written from pieces that make it up. -/
theorem extractMaths_eq (source : List Char) : ∃ ps,
    extractMaths source = ⟨written 0 ps, ps.filterMap Piece.part?⟩ ∧
      ps.flatMap Piece.source = withoutMarks source ∧ ∀ p ∈ ps, p.Fair := by
  have hfold : ∀ (lines read : List (List Char)) (r : Reading) (ps : List Piece),
      Reads r read ps → (r.fence ≠ none → r.prose = []) →
        ∃ ps', Reads (lines.foldl Reading.line r) (read ++ lines) ps' := by
    intro lines
    induction lines with
    | nil => exact fun read r ps h _ => ⟨ps, by simpa using h⟩
    | cons line lines ih =>
      intro read r ps h hfence
      obtain ⟨ps', hps', hfence'⟩ := h.line line hfence
      obtain ⟨ps'', hps''⟩ := ih _ _ ps' hps' hfence'
      exact ⟨ps'', by simpa using hps''⟩
  obtain ⟨ps, hps⟩ := hfold ((withoutMarks source).splitOn '\n') [] ⟨[], [], none, []⟩ []
    ⟨rfl, rfl, ⟨[], rfl, rfl, by simp, fun _ => rfl⟩, by simp⟩ (fun h => absurd rfl h)
  obtain ⟨ps', hflush, hprose⟩ := hps.flush
  obtain ⟨read, hread, hsource, -, -⟩ := hflush.source
  refine ⟨ps', ?_, ?_, hflush.fair⟩
  · rw [extractMaths]
    exact congrArg₂ WithMaths.mk hflush.text hflush.parts
  · rw [hprose, List.nil_append, List.append_nil] at hread
    rw [hsource, ← hread, join]
    exact List.intercalate_splitOn '\n'

end Written

/-! ### The numbers, and putting back -/

section PuttingBack

variable {l t text : List Char} {ps : List Piece} {n k : ℕ} {wholes : List (List Char)}

def Slice.number? : Slice → Option ℕ
  | .number n => some n
  | .text _ => none

/-- A slice with the pieces of the answer in the place of their numbers. -/
def putBack (wholes : List (List Char)) : Slice → List Char
  | .text l => l
  | .number n => wholes.getD n []

theorem splitFrom_skip (k : ℕ) (text l : List Char) :
    splitFrom k text l = splitFrom 0 text (l.drop k) := by
  induction l generalizing k with
  | nil => cases k <;> simp [splitFrom]
  | cons c l ih =>
    cases k with
    | zero => rfl
    | succ k => rw [splitFrom, List.drop_succ_cons, ih]

theorem splitFrom_plain (ht : openMark ∉ t) (text l : List Char) :
    splitFrom 0 text (t ++ l) = splitFrom 0 (text ++ t) l := by
  induction t generalizing text with
  | nil => rw [List.nil_append, List.append_nil]
  | cons c t ih =>
    rw [List.mem_cons, not_or] at ht
    have hmark : mark (c :: (t ++ l)) = none := by
      simp [mark, Ne.symm ht.1]
    rw [List.cons_append, splitFrom, hmark]
    dsimp only
    rw [ih ht.2, List.append_assoc, List.singleton_append]

theorem placeholder_append (n : ℕ) (l : List Char) :
    placeholder n ++ l = openMark :: (Nat.toDigits 10 n ++ closeMark :: l) := by
  simp [placeholder]

theorem mark_placeholder (n : ℕ) (l : List Char) :
    mark (placeholder n ++ l) = some (Nat.toDigits 10 n) := by
  have hdigits : (Nat.toDigits 10 n ++ closeMark :: l).takeWhile Char.isDigit =
      Nat.toDigits 10 n := by
    rw [List.takeWhile_append_of_pos]
    · rw [List.takeWhile_cons_of_neg (by decide), List.append_nil]
    · exact fun c hc => Nat.isDigit_of_mem_toDigits (by decide) (by decide) hc
  have hne : Nat.toDigits 10 n ≠ [] := Nat.toDigits_ne_nil
  rw [placeholder_append, mark, hdigits]
  simp [hne]

theorem splitFrom_placeholder (n : ℕ) (text l : List Char) :
    splitFrom 0 text (placeholder n ++ l) = textOf text ++ .number n :: splitFrom 0 [] l := by
  have hmark := mark_placeholder n l
  rw [placeholder_append] at hmark ⊢
  rw [splitFrom, hmark]
  dsimp only
  rw [Nat.ofDigitChars_ten_toDigits, splitFrom_skip, List.drop_append,
    List.drop_eq_nil_of_le (Nat.le_succ _)]
  simp

theorem flatMap_textOf (text : List Char) : (textOf text).flatMap (putBack wholes) = text := by
  rw [textOf]
  split
  · next h => rw [h]; rfl
  · simp [putBack]

theorem filterMap_textOf (text : List Char) : (textOf text).filterMap Slice.number? = [] := by
  rw [textOf]
  split <;> rfl

/-- Splitting what was written finds the formulas' numbers in their order. -/
theorem numbers_written (hno : ∀ p ∈ ps, openMark ∉ p.source) (n : ℕ) (text : List Char) :
    (splitFrom 0 text (written n ps)).filterMap Slice.number? =
      List.range' n (ps.filterMap Piece.part?).length := by
  induction ps generalizing n text with
  | nil => simp [written, splitFrom, filterMap_textOf]
  | cons p ps ih =>
    have hps := ih fun q hq => hno q (List.mem_cons_of_mem p hq)
    cases p with
    | plain c =>
      have hp : openMark ∉ [c] := hno _ List.mem_cons_self
      rw [written, ← List.singleton_append, splitFrom_plain hp, hps]
      rfl
    | kept whole =>
      have hp : openMark ∉ whole := hno _ List.mem_cons_self
      rw [written, splitFrom_plain hp, hps]
      rfl
    | formula whole part =>
      rw [written, splitFrom_placeholder, List.filterMap_append, filterMap_textOf,
        List.nil_append]
      simp only [List.filterMap_cons, Slice.number?, Piece.part?, hps, List.length_cons,
        List.range'_succ]

/-- Putting back what was lifted out of the pieces makes them up again. -/
theorem putBack_written (hno : ∀ p ∈ ps, openMark ∉ p.source) (before : List (List Char))
    (text : List Char) :
    (splitFrom 0 text (written before.length ps)).flatMap
        (putBack (before ++ ps.filterMap Piece.whole?)) =
      text ++ ps.flatMap Piece.source := by
  induction ps generalizing before text with
  | nil => simp [written, splitFrom, flatMap_textOf]
  | cons p ps ih =>
    have hps := ih fun q hq => hno q (List.mem_cons_of_mem p hq)
    cases p with
    | plain c =>
      have hp : openMark ∉ [c] := hno _ List.mem_cons_self
      have hrest := hps before (text ++ [c])
      rw [written, List.flatMap_cons, ← List.append_assoc, Piece.source,
        ← List.singleton_append (l := written before.length ps), splitFrom_plain hp]
      exact hrest
    | kept whole =>
      have hp : openMark ∉ whole := hno _ List.mem_cons_self
      have hrest := hps before (text ++ whole)
      rw [written, splitFrom_plain hp, List.flatMap_cons, ← List.append_assoc]
      exact hrest
    | formula whole part =>
      have hrest := hps (before ++ [whole]) []
      rw [List.length_append, List.length_singleton, List.append_assoc, List.singleton_append,
        List.nil_append] at hrest
      have hwholes : (Piece.formula whole part :: ps).filterMap Piece.whole? =
          whole :: ps.filterMap Piece.whole? := rfl
      rw [written, splitFrom_placeholder, List.flatMap_append, flatMap_textOf, List.flatMap_cons,
        hwholes, hrest, List.flatMap_cons]
      simp [putBack, Piece.source]

theorem openMark_notMem (source : List Char) : openMark ∉ withoutMarks source := by
  simp [withoutMarks]

theorem openMark_notMem_source {source : List Char}
    (h : ps.flatMap Piece.source = withoutMarks source) : ∀ p ∈ ps, openMark ∉ p.source := by
  intro p hp hmem
  have hin : openMark ∈ ps.flatMap Piece.source := List.mem_flatMap.mpr ⟨p, hp, hmem⟩
  rw [h] at hin
  exact openMark_notMem source hin

/-- **The placeholders are numbered as the formulas are**: what `splitAtMaths` finds in an answer's
text are the numbers of its formulas, each once and in order. -/
theorem extractMaths_numbers (source : List Char) :
    (splitAtMaths (extractMaths source).text).filterMap Slice.number? =
      List.range (extractMaths source).parts.length := by
  obtain ⟨ps, heq, hsource, -⟩ := extractMaths_eq source
  rw [heq, splitAtMaths, numbers_written (openMark_notMem_source hsource), List.range_eq_range']

/-- **Nothing else is changed**: the answer is its text with formulas put back in the place of their
numbers, each of which is its part between delimiters. -/
theorem extractMaths_restored (source : List Char) : ∃ wholes,
    List.Forall₂ Delimited wholes (extractMaths source).parts ∧
      (splitAtMaths (extractMaths source).text).flatMap (putBack wholes) =
        withoutMarks source := by
  obtain ⟨ps, heq, hsource, hfair⟩ := extractMaths_eq source
  refine ⟨ps.filterMap Piece.whole?, ?_, ?_⟩
  · rw [heq]
    dsimp only
    clear heq hsource
    induction ps with
    | nil => exact .nil
    | cons p ps ih =>
      have hps := ih fun q hq => hfair q (List.mem_cons_of_mem p hq)
      cases p with
      | formula whole part => exact .cons (hfair _ List.mem_cons_self) hps
      | _ => exact hps
  · have hback := putBack_written (openMark_notMem_source hsource) [] []
    rw [heq, splitAtMaths, ← hsource]
    exact hback

end PuttingBack

end Maths

end LocalSpace
