import LocalSpace.Entities
import LocalSpace.Gateway
import LocalSpace.Library.Scans
import LocalSpace.Library.Slices

/-!
# Pages

`gateway.rs`: a page's text and its title are read with positions that count bytes, some of the page
and some of its lower-cased copy, as if they were the same. A slice at a position that is not between
two characters fails. The lower-casing is a parameter: in Unicode a character's lower case may have
more bytes than it, or fewer.
-/

namespace LocalSpace

namespace Net

open Library

/-! ### Slices and searches -/

/-- `&text[n..]`. -/
def sliceFrom (n : ℕ) (text : List Char) : Option (List Char) :=
  (sliceAt n text).map Prod.snd

/-- `&text[a..b]`. -/
def slice (a b : ℕ) (text : List Char) : Option (List Char) :=
  (sliceAt b text).bind fun parts => sliceFrom a parts.1

/-- `str::find`: how many bytes stand before the first occurrence. -/
@[grind =]
def find (pattern text : List Char) : Option ℕ :=
  (splitOnce pattern text).map fun parts => byteLength parts.1

def trimText (l : List Char) : List Char :=
  (trim (String.ofList l)).toList

section Reading

variable (lowercase : List Char → List Char)

/-! ### The title -/

/-- Where a title's text begins and ends, in the lower-cased page. -/
def titleSpan (lower : List Char) : Option (Option (ℕ × ℕ)) :=
  match find "<title".toList lower with
  | none => some none
  | some start => do
    let opened ← sliceFrom start lower
    match find ['>'] opened with
    | none => some none
    | some n =>
      let openEnd := n + start + 1
      let inner ← sliceFrom openEnd lower
      match find "</title>".toList inner with
      | none => some none
      | some m => some (some (openEnd, m + openEnd))

/-- `extract_title`; nothing at all where a slice fails. -/
def extractTitle (html : List Char) : Option (Option (List Char)) :=
  (titleSpan (lowercase html)).bind fun span =>
    match span with
    | none => some none
    | some (openEnd, stop) => (slice openEnd stop html).map fun title =>
        let title := trimText title
        if title.isEmpty then none else some (decodeEntities title)

/-! ### The text -/

/-- What has been read of a page, and how far. -/
structure Reading where
  pos : ℕ
  out : List Char

def skipped : List (List Char) :=
  ["script".toList, "style".toList, "noscript".toList, "svg".toList]

def blocks : List (List Char) :=
  ["<p".toList, "<br".toList, "<div".toList, "<li".toList, "<h1".toList, "<h2".toList,
    "<h3".toList, "<tr".toList, "</p".toList, "</div".toList]

/-- The end of the element that opens here, if it is one whose contents are dropped: behind its
closing tag, or the page's end. -/
def skipEnd (whole pos : ℕ) (opened : List Char) : Option ℕ :=
  (skipped.find? fun tag => ('<' :: tag).isPrefixOf opened).map fun tag =>
    let close := '<' :: '/' :: (tag ++ ['>'])
    match find close opened with
    | some n => pos + (n + byteLength close)
    | none => whole

/-- Whether the byte at a position is a `<`. -/
def tagAt (html : List Char) (pos : ℕ) : Option (List Char) :=
  match sliceFrom pos html with
  | some ('<' :: rest) => some ('<' :: rest)
  | _ => none

/-- The tag that begins at a position is passed over. -/
def passTag (lower : List Char) (r : Reading) (tag : List Char) : Round Reading (List Char) :=
  match sliceFrom r.pos lower with
  | none => .fail
  | some opened =>
    match find ['>'] tag with
    | none => .stop r.out
    | some n =>
      .next ⟨r.pos + (n + 1),
        r.out ++ [if blocks.any fun b => b.isPrefixOf opened then '\n' else ' ']⟩

/-- One turn of `html_to_text`. -/
@[grind =]
def textTurn (html : List Char) (r : Reading) : Round Reading (List Char) :=
  let lower := lowercase html
  if byteLength html ≤ r.pos then .stop r.out
  else match tagAt html r.pos with
    | some tag =>
      match sliceFrom r.pos lower with
      | none => .fail
      | some opened =>
        match skipEnd (byteLength html) r.pos opened with
        | none => passTag lower r tag
        | some stop =>
          let r : Reading := ⟨stop, r.out ++ [' ']⟩
          if byteLength html ≤ stop then .stop r.out
          else match tagAt html stop with
            | none => .next r
            | some tag => passTag lower r tag
    | none =>
      match sliceFrom r.pos html with
      | none => .fail
      | some rest =>
        let c := rest.headD ' '
        .next ⟨r.pos + c.utf8Size, r.out ++ [c]⟩

/-- `str::lines`. -/
def linesOf (l : List Char) : List (List Char) :=
  let lines := splitAt '\n' l
  (if lines.getLast? = some [] then lines.dropLast else lines).map fun line =>
    if line.getLast? = some '\r' then line.dropLast else line

/-- A line with its words one space apart. -/
def wordsApart (line : List Char) : List Char :=
  [' '].intercalate ((line.splitOnP isWhitespace).filter fun word => !word.isEmpty)

/-- The white space that the tags have left is collapsed: of empty lines in a row the first stays. -/
@[grind =]
def collapse : ℕ → List (List Char) → List Char
  | _, [] => []
  | run, line :: lines =>
    let trimmed := wordsApart line
    if trimmed.isEmpty then
      if run + 1 > 1 then collapse (run + 1) lines else '\n' :: collapse (run + 1) lines
    else trimmed ++ '\n' :: collapse 0 lines

/-- `html_to_text`, with fuel for its loop. -/
def htmlToText (fuel : ℕ) (html : List Char) : Option (List Char) :=
  (scan (textTurn lowercase html) fuel ⟨0, []⟩).map fun out =>
    trimText (collapse 0 (linesOf (decodeEntities out)))

/-! ### What is asked of a page -/

/-- At every tag the loop stands at, the position is one of the lower-cased copy too; and the end of
an element that it drops, found there, is one of the page, where it lies in it. -/
def TextMeets (html : List Char) (r : Reading) : Prop :=
  r.pos < byteLength html → ∀ tag, tagAt html r.pos = some tag →
    Boundary (lowercase html) r.pos ∧
      ∀ opened stop, sliceFrom r.pos (lowercase html) = some opened →
        skipEnd (byteLength html) r.pos opened = some stop → stop < byteLength html →
          Boundary html stop

/-- Where the title's text begins and ends in the lower-cased copy are positions of the page. -/
def TitleMeets (html : List Char) : Prop :=
  ∀ openEnd stop, titleSpan (lowercase html) = some (some (openEnd, stop)) →
    Boundary html openEnd ∧ Boundary html stop

/-- The page's text and its title are read: the loop ends, and no slice fails. -/
def ReadSafely (html : List Char) : Prop :=
  (∃ n out, ∀ fuel ≥ n, htmlToText lowercase fuel html = some out) ∧
    (extractTitle lowercase html).isSome = true

end Reading

section Slicing

variable {text pattern rest html tag lower opened : List Char} {n a b pos : ℕ}

theorem sliceFrom_eq_some (h : sliceFrom n text = some rest) :
    ∃ before, text = before ++ rest ∧ n = byteLength before := by
  obtain ⟨⟨before, rest'⟩, hslice, rfl⟩ := Option.map_eq_some_iff.mp h
  exact ⟨before, sliceAt_eq_some hslice⟩

theorem sliceFrom_append (before rest : List Char) :
    sliceFrom (byteLength before) (before ++ rest) = some rest := by
  rw [sliceFrom, sliceAt_append]
  rfl

/-- A slice is there at a boundary, and nowhere else. -/
theorem boundary_iff_sliceFrom : Boundary text n ↔ ∃ rest, sliceFrom n text = some rest := by
  constructor
  · rintro ⟨before, rest, rfl, rfl⟩
    exact ⟨rest, sliceFrom_append before rest⟩
  · rintro ⟨rest, h⟩
    obtain ⟨before, rfl, rfl⟩ := sliceFrom_eq_some h
    exact boundary_append before rest

theorem find_eq_some (h : find pattern text = some n) :
    ∃ before after, text = before ++ pattern ++ after ∧ n = byteLength before := by
  obtain ⟨⟨before, after⟩, hsplit, rfl⟩ := Option.map_eq_some_iff.mp h
  exact ⟨before, after, splitOnce_eq_some hsplit, rfl⟩

theorem tagAt_eq_some (h : tagAt html pos = some tag) :
    ∃ before rest, html = before ++ tag ∧ tag = '<' :: rest ∧ pos = byteLength before := by
  rw [tagAt] at h
  split at h
  · rename_i rest hslice
    cases h
    obtain ⟨before, rfl, rfl⟩ := sliceFrom_eq_some hslice
    exact ⟨before, rest, rfl, rfl, rfl⟩
  · cases h

theorem tagAt_boundary (h : tagAt html pos = some tag) : Boundary html pos := by
  obtain ⟨before, rest, rfl, -, rfl⟩ := tagAt_eq_some h
  exact boundary_append before tag

/-- A slice between two positions. -/
theorem slice_isSome (hle : a ≤ b) :
    (slice a b text).isSome = true ↔ Boundary text a ∧ Boundary text b := by
  constructor
  · intro h
    obtain ⟨found, hfound⟩ := Option.isSome_iff_exists.mp h
    obtain ⟨⟨front, back⟩, hslice, hfront⟩ := Option.bind_eq_some_iff.mp hfound
    obtain ⟨rfl, rfl⟩ := sliceAt_eq_some hslice
    obtain ⟨before, hbefore, rfl⟩ := sliceFrom_eq_some hfront
    dsimp only at hbefore
    subst hbefore
    exact ⟨⟨before, found ++ back, by rw [List.append_assoc], rfl⟩, boundary_append _ back⟩
  · rintro ⟨⟨before, rest, htext, rfl⟩, ⟨front, back, rfl, rfl⟩⟩
    rcases List.append_eq_append_iff.mp htext with ⟨mid, rfl, -⟩ | ⟨mid, rfl, -⟩
    · -- what stands before the first position is not longer than what stands before the second
      have hmid : mid = [] := by
        by_contra hne
        have hpos := byteLength_pos hne
        rw [byteLength_append] at hle
        omega
      subst hmid
      rw [slice, sliceAt_append, Option.bind_some, List.append_nil]
      have hall := sliceFrom_append front []
      rw [List.append_nil] at hall
      rw [hall]
      rfl
    · rw [slice, sliceAt_append, Option.bind_some]
      dsimp only
      rw [sliceFrom_append]
      rfl

/-- The title's span is found without a slice that fails, between two places of the copy. -/
theorem titleSpan_eq (lower : List Char) : ∃ span, titleSpan lower = some span ∧
    ∀ openEnd stop, span = some (openEnd, stop) →
      openEnd ≤ stop ∧ Boundary lower openEnd ∧ Boundary lower stop := by
  rw [titleSpan]
  cases hstart : find "<title".toList lower with
  | none => exact ⟨none, rfl, fun _ _ h => nomatch h⟩
  | some start =>
    obtain ⟨before, after, rfl, rfl⟩ := find_eq_some hstart
    dsimp only
    rw [List.append_assoc, sliceFrom_append]
    simp only [Option.bind_eq_bind, Option.bind_some]
    cases hopen : find ['>'] ("<title".toList ++ after) with
    | none => exact ⟨none, rfl, fun _ _ h => nomatch h⟩
    | some n =>
      obtain ⟨attributes, inner, heq, rfl⟩ := find_eq_some hopen
      have hpos : byteLength attributes + byteLength before + 1 =
          byteLength (before ++ (attributes ++ ['>'])) := by
        rw [byteLength_append, byteLength_append]
        change _ = byteLength before + (byteLength attributes + 1)
        omega
      dsimp only
      rw [heq, ← List.append_assoc before, hpos, sliceFrom_append]
      simp only [Option.bind_some]
      cases hclose : find "</title>".toList inner with
      | none => exact ⟨none, rfl, fun _ _ h => nomatch h⟩
      | some m =>
        obtain ⟨body, after, rfl, rfl⟩ := find_eq_some hclose
        refine ⟨_, rfl, fun openEnd stop h => ?_⟩
        cases h
        refine ⟨Nat.le_add_left _ _, boundary_append _ _,
          before ++ (attributes ++ ['>']) ++ body, "</title>".toList ++ after, ?_, ?_⟩
        · simp only [List.append_assoc]
        · rw [byteLength_append _ body, Nat.add_comm]

end Slicing

section Turns

variable {lowercase : List Char → List Char} {html tag lower opened : List Char} {r : Reading}
  {stop : ℕ}

/-- **The title** is read exactly where its span is one of the page. -/
theorem extractTitle_isSome (lowercase : List Char → List Char) (html : List Char) :
    (extractTitle lowercase html).isSome = true ↔ TitleMeets lowercase html := by
  obtain ⟨span, hspan, hplaces⟩ := titleSpan_eq (lowercase html)
  rw [extractTitle, TitleMeets, hspan, Option.bind_some]
  rcases span with - | ⟨openEnd, stop⟩
  · simp
  · rw [Option.isSome_map, slice_isSome (hplaces openEnd stop rfl).1]
    constructor
    · rintro h _ _ ⟨⟩
      exact h
    · exact fun h => h openEnd stop rfl

/-- The end of an element that is dropped lies further on: it is the page's, or it is found in the
copy. -/
theorem skipEnd_cases {before : List Char}
    (h : skipEnd (byteLength html) (byteLength before) opened = some stop)
    (hlt : byteLength before < byteLength html) :
    byteLength before < stop ∧ (stop = byteLength html ∨ Boundary (before ++ opened) stop) := by
  obtain ⟨tag, -, rfl⟩ := Option.map_eq_some_iff.mp h
  dsimp only
  split
  · rename_i n hfind
    obtain ⟨inside, after, rfl, rfl⟩ := find_eq_some hfind
    have hpos : 0 < byteLength ('<' :: '/' :: (tag ++ ['>'])) :=
      byteLength_pos (List.cons_ne_nil _ _)
    refine ⟨by omega, .inr ⟨before ++ (inside ++ '<' :: '/' :: (tag ++ ['>'])), after, ?_, ?_⟩⟩
    · simp only [List.append_assoc]
    · rw [byteLength_append, byteLength_append]
  · exact ⟨hlt, .inl rfl⟩

/-- A tag is passed over to a place behind it. -/
theorem passTag_cases (hlower : Boundary lower r.pos) (htag : tagAt html r.pos = some tag) :
    (∃ a, passTag lower r tag = .stop a) ∨
      ∃ t, passTag lower r tag = .next t ∧ r.pos < t.pos ∧ Boundary html t.pos := by
  obtain ⟨opened, hopened⟩ := boundary_iff_sliceFrom.mp hlower
  obtain ⟨before, rest, rfl, -, hpos⟩ := tagAt_eq_some htag
  rw [passTag, hopened]
  dsimp only
  cases hfind : find ['>'] tag with
  | none => exact .inl ⟨_, rfl⟩
  | some n =>
    obtain ⟨inside, after, heq, rfl⟩ := find_eq_some hfind
    refine .inr ⟨_, rfl, ?_, before ++ (inside ++ ['>']), after, ?_, ?_⟩
    · dsimp only
      omega
    · rw [heq]
      simp only [List.append_assoc]
    · dsimp only
      rw [byteLength_append, byteLength_append, hpos]
      rfl

/-- **One turn** moves forward, where it meets its condition. -/
theorem textTurn_advances (hboundary : Boundary html r.pos)
    (hmeets : TextMeets lowercase html r) :
    Advances (textTurn lowercase html) Reading.pos (Boundary html) r := by
  have hpass : ∀ {t : Reading} {tag : List Char}, Boundary (lowercase html) t.pos →
      tagAt html t.pos = some tag → r.pos ≤ t.pos →
      textTurn lowercase html r = passTag (lowercase html) t tag →
        Advances (textTurn lowercase html) Reading.pos (Boundary html) r := by
    intro t tag hlower htag hle hturn
    rw [Advances, hturn]
    rcases passTag_cases hlower htag with ⟨a, ha⟩ | ⟨u, hu, hlt, hboundary⟩
    · rw [ha]
      trivial
    · rw [hu]
      exact ⟨hle.trans_lt hlt, hboundary⟩
  by_cases hend : byteLength html ≤ r.pos
  · rw [Advances, textTurn]
    dsimp only
    rw [if_pos hend]
    trivial
  · have hlt : r.pos < byteLength html := not_le.mp hend
    have hturn : textTurn lowercase html r = textTurn lowercase html r := rfl
    conv_rhs at hturn => rw [textTurn]
    dsimp only at hturn
    rw [if_neg hend] at hturn
    cases htag : tagAt html r.pos with
    | none =>
      obtain ⟨before, rest, rfl, hpos⟩ := hboundary
      rw [htag, hpos, sliceFrom_append] at hturn
      dsimp only at hturn
      rw [Advances, hturn]
      cases rest with
      | nil =>
        rw [List.append_nil] at hlt
        omega
      | cons c rest =>
        have hc := c.utf8Size_pos
        refine ⟨?_, before ++ [c], rest, by simp, ?_⟩
        · dsimp only [List.headD_cons]
          omega
        · simp
    | some tag =>
      obtain ⟨hlower, hskip⟩ := hmeets hlt tag htag
      obtain ⟨opened, hopened⟩ := boundary_iff_sliceFrom.mp hlower
      rw [htag, hopened] at hturn
      dsimp only at hturn
      cases hstop : skipEnd (byteLength html) r.pos opened with
      | none =>
        rw [hstop] at hturn
        exact hpass hlower htag le_rfl hturn
      | some stop =>
        rw [hstop] at hturn
        dsimp only at hturn
        obtain ⟨before, hbefore, hpos⟩ := sliceFrom_eq_some hopened
        rw [hpos] at hstop
        obtain ⟨hforward, hreach⟩ := skipEnd_cases hstop (hpos ▸ hlt)
        rw [← hpos] at hforward hstop
        rw [← hbefore] at hreach
        by_cases hstopEnd : byteLength html ≤ stop
        · rw [if_pos hstopEnd] at hturn
          rw [Advances, hturn]
          trivial
        · rw [if_neg hstopEnd] at hturn
          have hstopBoundary := hskip opened stop hopened hstop (not_le.mp hstopEnd)
          cases htagStop : tagAt html stop with
          | none =>
            rw [htagStop] at hturn
            rw [Advances, hturn]
            exact ⟨hforward, hstopBoundary⟩
          | some tag =>
            rw [htagStop] at hturn
            -- the end of an element is a position of the copy, where it was found
            have hstopLower := hreach.resolve_left fun h => hstopEnd h.ge
            exact hpass hstopLower htagStop hforward.le hturn

/-- Where a turn does not fail, it meets its condition. -/
theorem textMeets_of_turn (h : textTurn lowercase html r ≠ .fail)
    (hnext : ∀ t, textTurn lowercase html r = .next t → t.pos < byteLength html →
      tagAt html t.pos = none → Boundary html t.pos) : TextMeets lowercase html r := by
  intro hlt tag htag
  have hturn : textTurn lowercase html r = textTurn lowercase html r := rfl
  conv_rhs at hturn => rw [textTurn]
  dsimp only at hturn
  rw [if_neg (not_le.mpr hlt), htag] at hturn
  dsimp only at hturn
  cases hopened : sliceFrom r.pos (lowercase html) with
  | none =>
    rw [hopened] at hturn
    exact absurd hturn h
  | some opened =>
    refine ⟨boundary_iff_sliceFrom.mpr ⟨opened, hopened⟩, fun opened' stop hsame hstop hstopEnd => ?_⟩
    rw [hopened] at hturn
    cases hsame
    dsimp only at hturn
    rw [hstop] at hturn
    dsimp only at hturn
    rw [if_neg (not_le.mpr hstopEnd)] at hturn
    cases htagStop : tagAt html stop with
    | some tag => exact tagAt_boundary htagStop
    | none =>
      rw [htagStop] at hturn
      exact hnext _ hturn hstopEnd htagStop

/-- **The text** is read exactly where every turn that the loop comes to meets its condition. -/
theorem htmlToText_ends (lowercase : List Char → List Char) (html : List Char) :
    (∃ n out, ∀ fuel ≥ n, htmlToText lowercase fuel html = some out) ↔
      ∀ r, Reached (textTurn lowercase html) ⟨0, []⟩ r → TextMeets lowercase html r := by
  constructor
  · rintro ⟨n, out, hout⟩ r hr
    obtain ⟨a, ha, -⟩ := Option.map_eq_some_iff.mp (hout n le_rfl)
    have hends : ∃ n a, scan (textTurn lowercase html) n ⟨0, []⟩ = some a := ⟨n, a, ha⟩
    refine textMeets_of_turn (ne_fail_of_ends hends hr) fun t ht hlt htag => ?_
    -- the next turn takes a character of the page
    have hfine := ne_fail_of_ends hends (hr.tail ht)
    rw [textTurn] at hfine
    dsimp only at hfine
    rw [if_neg (not_le.mpr hlt), htag] at hfine
    cases hslice : sliceFrom t.pos html with
    | none =>
      rw [hslice] at hfine
      exact absurd rfl hfine
    | some rest => exact boundary_iff_sliceFrom.mpr ⟨rest, hslice⟩
  · intro h
    have hscans : Scans (textTurn lowercase html) Reading.pos (Boundary html) ⟨0, []⟩ :=
      scans_of_advances (fun n hn => hn.le) (boundary_zero html) fun r hr hinside =>
        textTurn_advances hinside (h r hr)
    obtain ⟨n, out, hout⟩ := hscans.ends
    exact ⟨n, _, fun fuel hfuel => by rw [htmlToText, hout fuel hfuel, Option.map_some]⟩

/-- **A page is read safely** exactly where its positions are those of its lower-cased copy, as far as
they are used in both. -/
theorem readSafely_iff (lowercase : List Char → List Char) (html : List Char) :
    ReadSafely lowercase html ↔
      (∀ r, Reached (textTurn lowercase html) ⟨0, []⟩ r → TextMeets lowercase html r) ∧
        TitleMeets lowercase html :=
  and_congr (htmlToText_ends lowercase html) (extractTitle_isSome lowercase html)

end Turns

/-- A lower-casing of a few characters; that of the dotted capital I has a byte more than it. -/
def lowerFew (l : List Char) : List Char :=
  l.flatMap fun c => if c = '\u0130' then ['i', '\u0307'] else [c.toLower]

/-- A paragraph after a dotted capital I. -/
def dotted : List Char :=
  ['\u0130', '<', 'p', '>']

/-- Its tag stands where its lower-cased copy has the middle of a character. -/
theorem dotted_unread : ¬∀ (html : List Char), ReadSafely lowerFew html := by
  intro h
  obtain ⟨⟨n, out, hout⟩, -⟩ := h dotted
  obtain ⟨a, ha, -⟩ := Option.map_eq_some_iff.mp (hout n le_rfl)
  have hstart : Reached (textTurn lowerFew dotted) ⟨0, []⟩ ⟨2, ['\u0130']⟩ :=
    Relation.ReflTransGen.refl.tail (by rfl)
  exact ne_fail_of_ends ⟨n, a, ha⟩ hstart (by rfl)

end Net

end LocalSpace
