import LocalSpace.Sharing
import LocalSpace.Extracts

/-!
# A message with its files

`agent.rs`'s `read_text_files` decides how much of each of a message's text files is read, and
`with_text_files` puts them in the message's words. Where the words and the files' frames fit half
the chat's budget, the message with its files does: the parts counted apart count no less than they
do together, and no note counts more than the longest, for which there is room.
-/

namespace LocalSpace.TextFiles

open Prompts Library

/-- The longest note, for the room a file's frame takes. -/
def longestNote : String :=
  " (only its first less than 1% fits here; say so if the rest matters)"

def fileEnd : String := "\n--- End of file ---"

/-- So many bytes of a text at most, read as UTF-8: a character cut at the end is replaced. -/
def firstBytes : ℕ → List Char → List Char
  | _, [] => []
  | most, c :: rest =>
    if c.utf8Size ≤ most then c :: firstBytes (most - c.utf8Size) rest
    else if most = 0 then []
    else ['\uFFFD']

/-- A kept text file of the chat, as text: as much of it as the model reads. -/
@[grind =]
def textOf (kept : String → Option String) (a : Attachment) : Option String :=
  if a.isText then
    (kept a.id).map fun contents =>
      match a.text with
      | none => contents
      | some facts => String.ofList (firstBytes (facts.readChars * 4) contents.toList)
  else none

section Model

variable (T : Texts)

/-- What is known of a text file as it is attached: all of it is read. -/
def factsOf (contents : String) : TextFile where
  chars := contents.toList.length
  readChars := contents.toList.length
  readTokens := tokensOf T contents

/-- What a file's frame takes. -/
def frameOf (a : Attachment) : ℕ :=
  tokensOf T (fileHead a.name longestNote) + tokensOf T fileEnd

def framesOf (texts : Attachment → Option String) (attached : List Attachment) : ℕ :=
  ((attached.filter fun a => (texts a).isSome).map (frameOf T)).sum

/-- How much of a file is read of its share. -/
def readFile (a : Attachment) (text : Option String) (share : ℕ) : Attachment :=
  match text with
  | none => a
  | some text =>
    let read := readWithin T text share
    { a with
      text := a.text.map fun facts =>
        { facts with readChars := read.chars, readTokens := read.tokens } }

/-- How much of each attached text file the model reads. -/
def readTextFiles (kept : String → Option String) (words : String) (chatBudget : ℕ)
    (attached : List Attachment) : List Attachment :=
  let texts := attached.map (textOf kept)
  let budget := chatBudget / 2 - (tokensOf T words + framesOf T (textOf kept) attached)
  let needs := texts.map fun text => (text.map (tokensOf T)).getD 0
  ((attached.zip texts).zip (share budget needs)).map fun x => readFile T x.1.1 x.1.2 x.2

end Model

/-! ### Parts of a text -/

section Parts

variable {T : Texts}

/-- A text by its characters. -/
def charsCost (isNumeric : Char → Bool) (text : List Char) : ℕ :=
  (countOf isNumeric text).tokens

theorem tokensOf_eq (text : String) : tokensOf T text = charsCost T.isNumeric text.toList := rfl

theorem charsCost_eq (isNumeric : Char → Bool) (text : List Char) :
    charsCost isNumeric text =
      max (countOf isNumeric text).value (divCeil (byteLength text) 4) := by
  have hbytes : (countOf isNumeric text).allBytes = byteLength text := by
    rw [countOf, Counted.allBytes_foldl, Nat.zero_add]
  rw [charsCost, Counted.tokens, hbytes]
  rfl

/-- What counts no more together than apart by its pieces costs no more together than apart. -/
theorem charsCost_append_le {isNumeric : Char → Bool} {x y : List Char}
    (h : (countOf isNumeric (x ++ y)).value ≤
      (countOf isNumeric x).value + (countOf isNumeric y).value) :
    charsCost isNumeric (x ++ y) ≤ charsCost isNumeric x + charsCost isNumeric y := by
  have hbytes := divCeil_four_add (byteLength x) (byteLength y)
  rw [charsCost_eq, charsCost_eq, charsCost_eq, byteLength_append]
  omega

/-- What begins with a line break or two, and then a mark, costs no more after a text than apart. -/
theorem charsCost_before_lines (hascii : Counted.AsciiDigits T.isNumeric) (x : List Char)
    {lines : List Char} (hlines : lines = ['\n'] ∨ lines = ['\n', '\n']) (y : List Char) :
    charsCost T.isNumeric (x ++ (lines ++ '-' :: y)) ≤
      charsCost T.isNumeric x + charsCost T.isNumeric (lines ++ '-' :: y) := by
  refine charsCost_append_le ?_
  rw [countOf, List.foldl_append]
  exact Counted.value_before_lines hascii _ hlines y

/-- What comes after a mark and a line break costs no more there than apart. -/
theorem charsCost_after_line (hascii : Counted.AsciiDigits T.isNumeric) (x y : List Char) :
    charsCost T.isNumeric ((x ++ ['-', '\n']) ++ y) ≤
      charsCost T.isNumeric (x ++ ['-', '\n']) + charsCost T.isNumeric y := by
  refine charsCost_append_le ?_
  have hmark : Counted.digitOf T.isNumeric '-' = none :=
    Counted.digitOf_ascii hascii (by decide) rfl
  have hline : Counted.digitOf T.isNumeric '\n' = none :=
    Counted.digitOf_ascii hascii (by decide) rfl
  have hrun : ((countOf T.isNumeric x).add T.isNumeric '-').run = .marks := by
    by_cases hjoins : Counted.runOf '-' = (countOf T.isNumeric x).run ∨
        ((countOf T.isNumeric x).run = .spaces ∧ Counted.runOf '-' = .lines)
    · rw [Counted.add_joins hmark hjoins]
      rfl
    · rw [Counted.add_apart hmark hjoins]
      rfl
  have hend : countOf T.isNumeric (x ++ ['-', '\n']) =
      ((countOf T.isNumeric x).add T.isNumeric '-').add T.isNumeric '\n' := by
    rw [countOf, List.foldl_append]
    rfl
  rw [countOf, List.foldl_append, ← countOf, hend]
  refine Counted.value_after_line ?_ ?_ y
  · rw [Counted.add_apart hline (by rw [hrun]; decide)]
    rfl
  · rw [Counted.add_apart hline (by rw [hrun]; decide)]
    rfl

end Parts

/-! ### The notes -/

section Notes

variable {T : Texts}

/-- The count where a mark after a space begins a piece. -/
def afterMark : Counted :=
  ⟨0, .marks, 1, 1, 1, 0⟩

/-- What follows that mark costs, its piece included. -/
@[grind =]
def restCost (isNumeric : Char → Bool) (rest : List Char) : ℕ :=
  (rest.foldl (Counted.add isNumeric) afterMark).value

/-- A note and the end of its head. -/
@[grind =]
def noteTail (note : String) : List Char :=
  note.toList ++ [' ', '-', '-', '-', '\n']

/-- After a space and a mark, what follows counts the same whatever came before. -/
theorem value_after_mark (hascii : Counted.AsciiDigits T.isNumeric) (s : Counted) {mark : Char}
    (hmark : mark = '(' ∨ mark = '-') (rest : List Char) :
    ((' ' :: mark :: rest).foldl (Counted.add T.isNumeric) s).value =
      (s.add T.isNumeric ' ').value + restCost T.isNumeric rest := by
  have hspace : Counted.digitOf T.isNumeric ' ' = none :=
    Counted.digitOf_ascii hascii (by decide) rfl
  have hdigit : Counted.digitOf T.isNumeric mark = none := by
    rcases hmark with rfl | rfl
    · exact Counted.digitOf_ascii hascii (by decide) rfl
    · exact Counted.digitOf_ascii hascii (by decide) rfl
  have hmarks : Counted.runOf mark = .marks ∧ mark.utf8Size = 1 := by
    rcases hmark with rfl | rfl <;> exact ⟨rfl, rfl⟩
  have hrun : (s.add T.isNumeric ' ').run = .spaces := by
    by_cases hjoins : Counted.runOf ' ' = s.run ∨ (s.run = .spaces ∧ Counted.runOf ' ' = .lines)
    · rw [Counted.add_joins hspace hjoins]
      rfl
    · rw [Counted.add_apart hspace hjoins]
      rfl
  have halike : Counted.Alike ((s.add T.isNumeric ' ').add T.isNumeric mark) afterMark ∧
      ((s.add T.isNumeric ' ').add T.isNumeric mark).done = (s.add T.isNumeric ' ').value := by
    rw [Counted.add_apart hdigit (by rw [hmarks.1, hrun]; decide), hmarks.1, hmarks.2]
    exact ⟨⟨rfl, rfl, rfl, .inr rfl⟩, rfl⟩
  have hrest := halike.1.value_foldl T.isNumeric rest
  have hzero : afterMark.done = 0 := rfl
  rw [List.foldl_cons, List.foldl_cons, restCost]
  omega

/-- On ASCII, the digits are all the numbers there are. -/
theorem foldl_ascii (hascii : Counted.AsciiDigits T.isNumeric) {text : List Char}
    (h : (text.all fun c => c.toNat < 128) = true) (s : Counted) :
    text.foldl (Counted.add T.isNumeric) s = text.foldl (Counted.add Char.isDigit) s := by
  induction text generalizing s with
  | nil => rfl
  | cons c rest ih =>
    rw [List.all_cons, Bool.and_eq_true, decide_eq_true_eq] at h
    have hc : Counted.digitOf T.isNumeric c = Counted.digitOf Char.isDigit c := by
      rw [Counted.digitOf, Counted.digitOf, hascii c h.1]
    have hadd : s.add T.isNumeric c = s.add Char.isDigit c := by
      rw [Counted.add, Counted.add, hc]
    rw [List.foldl_cons, List.foldl_cons, hadd, ih h.2]

/-- The note of a file of which a part is read. -/
def partNote (part : String) : String :=
  s!" (only its first {part} fits here; say so if the rest matters)"

/-- What such a note says before the part, the longest part, and what it says after. -/
def beforePart : List Char := "only its first ".toList
def longestPart : List Char := "less than 1".toList
def afterPart : List Char := " fits here; say so if the rest matters) ---\n".toList

/-! The literals, a character at a time. -/

theorem beforePart_eq : beforePart =
    ['o', 'n', 'l', 'y', ' ', 'i', 't', 's', ' ', 'f', 'i', 'r', 's', 't', ' '] :=
  String.toList_ofList

theorem longestPart_eq : longestPart =
    ['l', 'e', 's', 's', ' ', 't', 'h', 'a', 'n', ' ', '1'] :=
  String.toList_ofList

set_option maxRecDepth 2000 in
theorem afterPart_eq : afterPart =
    [' ', 'f', 'i', 't', 's', ' ', 'h', 'e', 'r', 'e', ';', ' ', 's', 'a', 'y', ' ', 's', 'o',
      ' ', 'i', 'f', ' ', 't', 'h', 'e', ' ', 'r', 'e', 's', 't', ' ', 'm', 'a', 't', 't', 'e',
      'r', 's', ')', ' ', '-', '-', '-', '\n'] :=
  String.toList_ofList

theorem partNote_toList (part : String) : (partNote part).toList =
    " (only its first ".toList ++ part.toList ++
      " fits here; say so if the rest matters)".toList := by
  rw [← String.toList_append, ← String.toList_append]
  rfl

theorem noteTail_partNote (part : List Char) :
    noteTail (partNote (String.ofList (part ++ ['%']))) =
      ' ' :: '(' :: (beforePart ++ part ++ '%' :: afterPart) := by
  have hbefore : " (only its first ".toList = ' ' :: '(' :: beforePart := by
    rw [beforePart_eq]
    exact String.toList_ofList
  have hafter : " fits here; say so if the rest matters)".toList ++ [' ', '-', '-', '-', '\n'] =
      afterPart := by
    rw [afterPart_eq]
    exact congrArg (· ++ [' ', '-', '-', '-', '\n']) String.toList_ofList
  rw [noteTail, partNote_toList, hbefore, List.append_assoc, hafter, String.toList_ofList]
  simp only [List.append_assoc, List.cons_append, List.nil_append]

/-- A note begins with a space and a mark, and costs no more than the longest. -/
def NoMore (isNumeric : Char → Bool) (note : String) : Prop :=
  ∃ mark rest, noteTail note = ' ' :: mark :: rest ∧ (mark = '(' ∨ mark = '-') ∧
    restCost isNumeric rest ≤
      restCost isNumeric (beforePart ++ longestPart ++ '%' :: afterPart) ∧
    byteLength rest ≤ byteLength (beforePart ++ longestPart ++ '%' :: afterPart)

/-- What comes before the part costs, with the part. -/
def partCost (part : List Char) : Counted :=
  (beforePart ++ part).foldl (Counted.add Char.isDigit) afterMark

theorem percents_no_more : ((List.range 100).all fun percent =>
    ((Nat.toDigits 10 percent).all fun c => c.toNat < 128) ∧
      byteLength (Nat.toDigits 10 percent) ≤ byteLength longestPart ∧
      (partCost (Nat.toDigits 10 percent)).run = .none ∧
      (partCost (Nat.toDigits 10 percent)).value ≤ 9) = true := by
  simp only [partCost, beforePart_eq, longestPart_eq]
  decide +kernel

theorem literals_ascii : (beforePart.all fun c => c.toNat < 128) = true ∧
    (longestPart.all fun c => c.toNat < 128) = true := by
  rw [beforePart_eq, longestPart_eq]
  decide

/-- After a part that ends in a digit, the percent sign begins a piece. -/
theorem restCost_part (hascii : Counted.AsciiDigits T.isNumeric) {part : List Char}
    (hpart : (part.all fun c => c.toNat < 128) = true)
    (hrun : (partCost part).run = .none) :
    restCost T.isNumeric (beforePart ++ part ++ '%' :: afterPart) =
      (partCost part).value + (countOf T.isNumeric ('%' :: afterPart)).value := by
  have hfront : (beforePart ++ part).foldl (Counted.add T.isNumeric) afterMark = partCost part := by
    refine foldl_ascii hascii ?_ _
    rw [List.all_append, literals_ascii.1, hpart]
    rfl
  have hbegins : ∀ s : Counted, s.run = .none → Counted.Begins T.isNumeric s '%' := by
    intro s hs
    refine ⟨by rw [hs]; nofun, .inr ?_⟩
    rw [hs]
    decide
  have hrest := @Counted.Begins.value_foldl T.isNumeric (partCost part) {} '%' afterPart
    (hbegins _ hrun) (hbegins _ rfl)
  have hempty : ({} : Counted).value = 0 := rfl
  rw [restCost, List.foldl_append, hfront, countOf]
  omega

theorem noteTail_longest : noteTail longestNote =
    ' ' :: '(' :: (beforePart ++ longestPart ++ '%' :: afterPart) := by
  rw [beforePart_eq, longestPart_eq, afterPart_eq]
  exact congrArg (· ++ [' ', '-', '-', '-', '\n']) String.toList_ofList

theorem longest_part : (partCost longestPart).run = .none ∧ (partCost longestPart).value = 9 := by
  rw [partCost, beforePart_eq, longestPart_eq]
  decide

/-- A note that is ASCII costs no more than the longest, where it does not with ASCII's numbers. -/
theorem NoMore.of_ascii (hascii : Counted.AsciiDigits T.isNumeric) {note : String} {mark : Char}
    {rest : List Char} (hnote : noteTail note = ' ' :: mark :: rest)
    (hmark : mark = '(' ∨ mark = '-')
    (hrest : (rest.all fun c => c.toNat < 128) ∧ restCost Char.isDigit rest ≤ 23 ∧
      byteLength rest ≤ byteLength (beforePart ++ longestPart ++ '%' :: afterPart)) :
    NoMore T.isNumeric note := by
  refine ⟨mark, rest, hnote, hmark, ?_, hrest.2.2⟩
  have hlongest : ((beforePart ++ longestPart ++ '%' :: afterPart).all fun c => c.toNat < 128) ∧
      23 ≤ restCost Char.isDigit (beforePart ++ longestPart ++ '%' :: afterPart) := by
    rw [beforePart_eq, longestPart_eq, afterPart_eq]
    decide
  rw [restCost, restCost, foldl_ascii hascii hrest.1, foldl_ascii hascii hlongest.1]
  exact hrest.2.1.trans hlongest.2

def noRoom : String := " (there was no room left to read it here; say so if it matters)"

/-- What is said where there was no room, after its mark. -/
def noRoomRest : List Char :=
  "there was no room left to read it here; say so if it matters) ---\n".toList

set_option maxRecDepth 2000 in
theorem noRoomRest_eq : noRoomRest =
    ['t', 'h', 'e', 'r', 'e', ' ', 'w', 'a', 's', ' ', 'n', 'o', ' ', 'r', 'o', 'o', 'm', ' ',
      'l', 'e', 'f', 't', ' ', 't', 'o', ' ', 'r', 'e', 'a', 'd', ' ', 'i', 't', ' ', 'h', 'e',
      'r', 'e', ';', ' ', 's', 'a', 'y', ' ', 's', 'o', ' ', 'i', 'f', ' ', 'i', 't', ' ', 'm',
      'a', 't', 't', 'e', 'r', 's', ')', ' ', '-', '-', '-', '\n'] :=
  String.toList_ofList

set_option maxRecDepth 2000 in
theorem noteTail_noRoom : noteTail noRoom = ' ' :: '(' :: noRoomRest := by
  rw [noRoomRest_eq]
  exact congrArg (· ++ [' ', '-', '-', '-', '\n']) String.toList_ofList

theorem noRoom_ascii : (noRoomRest.all fun c => c.toNat < 128) ∧
    restCost Char.isDigit noRoomRest ≤ 23 ∧
    byteLength noRoomRest ≤ byteLength (beforePart ++ longestPart ++ '%' :: afterPart) := by
  rw [noRoomRest_eq, beforePart_eq, longestPart_eq, afterPart_eq]
  decide

/-- No note costs more than the longest. -/
theorem no_note_more (hascii : Counted.AsciiDigits T.isNumeric) (facts : Option TextFile) :
    NoMore T.isNumeric (noteOf facts) := by
  have hempty : noteTail "" = [' ', '-', '-', '-', '\n'] := rfl
  have hnone : NoMore T.isNumeric "" :=
    .of_ascii hascii hempty (.inr rfl) (by
      rw [beforePart_eq, longestPart_eq, afterPart_eq]
      decide)
  rcases facts with _ | facts
  · exact hnone
  · rw [noteOf]
    split
    · exact hnone
    · next hless =>
      split
      · exact .of_ascii hascii noteTail_noRoom (.inl rfl) noRoom_ascii
      · have hpercent : facts.readChars * 100 / max facts.chars 1 < 100 := by
          rw [Nat.div_lt_iff_lt_mul (by omega)]
          omega
        generalize facts.readChars * 100 / max facts.chars 1 = percent at hpercent
        dsimp only
        split
        · exact ⟨'(', _, noteTail_longest, .inl rfl, le_rfl, le_rfl⟩
        · have hchecked := List.all_eq_true.mp percents_no_more percent
            (List.mem_range.mpr hpercent)
          rw [decide_eq_true_eq] at hchecked
          obtain ⟨hdigits, hbytes, hrun, hvalue⟩ := hchecked
          have hpart : toString percent ++ "%" =
              String.ofList (Nat.toDigits 10 percent ++ ['%']) := by
            have hsign : "%".toList = ['%'] := String.toList_ofList
            rw [← String.toList_inj, String.toList_append, hsign, Decimal.toList_toString,
              String.toList_ofList]
          refine ⟨'(', beforePart ++ Nat.toDigits 10 percent ++ '%' :: afterPart, ?_, .inl rfl, ?_,
            ?_⟩
          · exact (congrArg (fun part => noteTail (partNote part)) hpart).trans
              (noteTail_partNote (Nat.toDigits 10 percent))
          · rw [restCost_part hascii hdigits hrun,
              restCost_part hascii literals_ascii.2 longest_part.1, longest_part.2]
            omega
          · simp only [byteLength_append]
            omega

end Notes

/-! ### A file's block -/

section Blocks

variable {T : Texts}

/-- What a file's head begins with. -/
@[grind =]
def headFront (name : String) : List Char :=
  ['\n', '\n'] ++ '-' :: (['-', '-', ' ', 'F', 'i', 'l', 'e', ':', ' '] ++ name.toList)

theorem fileHead_toList (name note : String) :
    (fileHead name note).toList = headFront name ++ noteTail note := by
  have hfront : "\n\n--- File: ".toList =
      ['\n', '\n', '-', '-', '-', ' ', 'F', 'i', 'l', 'e', ':', ' '] := String.toList_ofList
  have hend : " ---\n".toList = [' ', '-', '-', '-', '\n'] := String.toList_ofList
  have hhead : (fileHead name note).toList =
      "\n\n--- File: ".toList ++ name.toList ++ note.toList ++ " ---\n".toList := by
    rw [← String.toList_append, ← String.toList_append, ← String.toList_append]
    rfl
  rw [hhead, hfront, hend, headFront, noteTail]
  simp only [List.append_assoc, List.cons_append, List.nil_append]

theorem fileEnd_toList : ∃ rest, fileEnd.toList = ['\n'] ++ '-' :: rest :=
  ⟨_, String.toList_ofList⟩

/-- No note makes a head cost more than the longest does. -/
theorem head_le (hascii : Counted.AsciiDigits T.isNumeric) (name : String)
    (facts : Option TextFile) :
    tokensOf T (fileHead name (noteOf facts)) ≤ tokensOf T (fileHead name longestNote) := by
  obtain ⟨mark, rest, hnote, hmark, hcost, hbytes⟩ := no_note_more hascii facts
  have hvalue := value_after_mark hascii (countOf T.isNumeric (headFront name)) hmark rest
  have hvalue' := value_after_mark hascii (countOf T.isNumeric (headFront name)) (.inl rfl)
    (beforePart ++ longestPart ++ '%' :: afterPart)
  have hsize : mark.utf8Size = 1 := by
    rcases hmark with rfl | rfl <;> rfl
  have hsize' : ('(' : Char).utf8Size = 1 := rfl
  have hceil : divCeil (byteLength (headFront name) + byteLength (noteTail (noteOf facts))) 4 ≤
      divCeil (byteLength (headFront name) + byteLength (noteTail longestNote)) 4 := by
    refine divCeil_mono (Nat.add_le_add_left ?_ _)
    rw [hnote, noteTail_longest, byteLength_cons, byteLength_cons, byteLength_cons,
      byteLength_cons, hsize, hsize']
    omega
  rw [tokensOf_eq, tokensOf_eq, fileHead_toList, fileHead_toList, charsCost_eq, charsCost_eq,
    byteLength_append, byteLength_append, countOf, List.foldl_append, countOf, List.foldl_append,
    ← countOf]
  rw [hnote, noteTail_longest] at hceil ⊢
  rw [hvalue, hvalue']
  omega

/-- A file's block costs no more after a text than its frame and its part do apart. -/
theorem block_le (hascii : Counted.AsciiDigits T.isNumeric) (content : String) (a : Attachment)
    (text : String) :
    tokensOf T (content ++ fileBlock a text) ≤ tokensOf T content + frameOf T a +
      tokensOf T ((a.text.map fun facts => firstChars text facts.readChars).getD text) := by
  have hblock : fileBlock a text = fileHead a.name (noteOf a.text) ++
      (a.text.map fun facts => firstChars text facts.readChars).getD text ++ fileEnd := by
    rw [fileBlock]
    rcases a.text with _ | facts <;> rfl
  rw [hblock]
  generalize (a.text.map fun facts => firstChars text facts.readChars).getD text = part
  obtain ⟨rest, hend⟩ := fileEnd_toList
  have hhead := head_le hascii a.name a.text
  -- the end after what comes before it, the part after its head, the head after the words
  have hafter := charsCost_before_lines hascii
    (content.toList ++ (fileHead a.name (noteOf a.text)).toList ++ part.toList) (.inl rfl) rest
  obtain ⟨front, hfront⟩ : ∃ front, content.toList ++ (fileHead a.name (noteOf a.text)).toList =
      front ++ ['-', '\n'] := by
    refine ⟨content.toList ++ (headFront a.name ++ ((noteOf a.text).toList ++ [' ', '-', '-'])), ?_⟩
    rw [fileHead_toList, noteTail]
    simp only [List.append_assoc, List.cons_append, List.nil_append]
  have hpart := charsCost_after_line hascii front part.toList
  have hbefore := charsCost_before_lines hascii content.toList (.inr rfl)
    (['-', '-', ' ', 'F', 'i', 'l', 'e', ':', ' '] ++ a.name.toList ++ noteTail (noteOf a.text))
  rw [← hend] at hafter
  rw [← hfront] at hpart
  have hall : (content ++ (fileHead a.name (noteOf a.text) ++ part ++ fileEnd)).toList =
      content.toList ++ (fileHead a.name (noteOf a.text)).toList ++ part.toList ++
        fileEnd.toList := by
    simp only [String.toList_append, List.append_assoc]
  have hheads : ['\n', '\n'] ++ '-' :: (['-', '-', ' ', 'F', 'i', 'l', 'e', ':', ' '] ++
      a.name.toList ++ noteTail (noteOf a.text)) = (fileHead a.name (noteOf a.text)).toList := by
    rw [fileHead_toList, headFront]
    simp only [List.cons_append, List.nil_append]
  rw [hheads] at hbefore
  simp only [tokensOf_eq, frameOf] at hhead ⊢
  rw [hall]
  omega

end Blocks

/-! ### The message -/

section Message

variable {T : Texts} {kept : String → Option String}

/-- Four bytes for each character are enough to read as many. -/
theorem firstBytes_take (n : ℕ) (text : List Char) :
    (firstBytes (n * 4) text).take n = text.take n := by
  suffices h : ∀ most, n * 4 ≤ most → (firstBytes most text).take n = text.take n from h _ le_rfl
  induction text generalizing n with
  | nil => exact fun _ _ => rfl
  | cons c rest ih =>
    intro most hmost
    rcases n with _ | n
    · rw [List.take_zero, List.take_zero]
    · have hsize := Char.utf8Size_le_four c
      rw [firstBytes, if_pos (by omega), List.take_succ_cons, List.take_succ_cons,
        ih n _ (by omega)]

theorem firstBytes_all (text : List Char) : firstBytes (text.length * 4) text = text := by
  suffices h : ∀ most, text.length * 4 ≤ most → firstBytes most text = text from h _ le_rfl
  induction text with
  | nil => exact fun _ _ => rfl
  | cons c rest ih =>
    intro most hmost
    have hsize := Char.utf8Size_le_four c
    rw [List.length_cons] at hmost
    rw [firstBytes, if_pos (by omega), ih _ (by omega)]

/-- An attachment as it was attached: all of a kept text file is read. -/
def TakenIn (T : Texts) (kept : String → Option String) (a : Attachment) : Prop :=
  a.isText = true → ∀ contents, kept a.id = some contents → a.text = some (factsOf T contents)

theorem textOf_takenIn {a : Attachment} (h : TakenIn T kept a) :
    textOf kept a = if a.isText then kept a.id else none := by
  rw [textOf]
  by_cases htext : a.isText = true
  · rw [if_pos htext, if_pos htext]
    rcases hkept : kept a.id with _ | contents
    · rfl
    · rw [h htext contents hkept, Option.map_some, factsOf]
      dsimp only
      rw [firstBytes_all, String.ofList_toList]
  · rw [if_neg htext, if_neg htext]

/-- What joins the words of a file that was read, costs no more than its frame and its share. -/
theorem joined_le (hascii : Counted.AsciiDigits T.isNumeric) {a : Attachment}
    (htaken : TakenIn T kept a) (share : ℕ) (content : String) :
    (∃ text, textOf kept (readFile T a (textOf kept a) share) = some text ∧
      tokensOf T (content ++ fileBlock (readFile T a (textOf kept a) share) text) ≤
        tokensOf T content + frameOf T a + share ∧ (textOf kept a).isSome = true) ∨
      textOf kept (readFile T a (textOf kept a) share) = none := by
  rcases htext : textOf kept a with _ | contents
  · exact .inr htext
  · rw [textOf_takenIn htaken] at htext
    split at htext
    · next htexts =>
      have hfacts := htaken htexts contents htext
      left
      have hread := readWithin_le T contents share
      generalize hreadeq : readWithin T contents share = read at hread
      have hfile : readFile T a (some contents) share =
          { a with text := some ⟨contents.toList.length, read.chars, read.tokens⟩ } := by
        rw [readFile, hfacts, hreadeq]
        rfl
      have htextOf : textOf kept (readFile T a (some contents) share) =
          some (String.ofList (firstBytes (read.chars * 4) contents.toList)) := by
        rw [hfile, textOf, if_pos htexts, htext]
        rfl
      refine ⟨_, htextOf, ?_, rfl⟩
      have hblock := block_le (T := T) hascii content (readFile T a (some contents) share)
        (String.ofList (firstBytes (read.chars * 4) contents.toList))
      have hpart : firstChars (String.ofList (firstBytes (read.chars * 4) contents.toList))
          read.chars = firstChars contents read.chars := by
        rw [firstChars, String.toList_ofList, firstBytes_take, firstChars]
      rw [hfile] at hblock ⊢
      rw [Option.map_some, Option.getD_some, hpart] at hblock
      have hframe : frameOf T { a with
          text := some ⟨contents.toList.length, read.chars, read.tokens⟩ } = frameOf T a := rfl
      omega
    · cases htext

/-- A file joins a person's words. -/
def join (texts : Attachment → Option String) (content : String) (file : Attachment) : String :=
  match texts file with
  | none => content
  | some text => content ++ fileBlock file text

theorem readFile_isText (a : Attachment) (text : Option String) (share : ℕ) :
    (readFile T a text share).isText = a.isText := by
  rcases text with _ | text <;> rfl

/-- The words with their files cost no more than the words, the files' frames and their shares. -/
theorem joins_le (hascii : Counted.AsciiDigits T.isNumeric) {attached : List Attachment}
    (htaken : ∀ a ∈ attached, TakenIn T kept a) {shares : List ℕ}
    (hlength : shares.length = attached.length) (content : String) :
    tokensOf T (((((attached.zip (attached.map (textOf kept))).zip shares).map fun x =>
      readFile T x.1.1 x.1.2 x.2).filter (·.isText)).foldl (join (textOf kept)) content) ≤
        tokensOf T content + framesOf T (textOf kept) attached + shares.sum := by
  induction attached generalizing shares content with
  | nil =>
    rw [List.zip_nil_left, List.zip_nil_left]
    exact (Nat.le_add_right _ _).trans (Nat.le_add_right _ _)
  | cons a rest ih =>
    rcases shares with _ | ⟨share, shares⟩
    · cases hlength
    · have hrest := fun content => @ih (fun x hx => htaken x (List.mem_cons_of_mem _ hx)) shares
        (Nat.succ_injective hlength) content
      simp only [List.map_cons, List.zip_cons_cons, List.sum_cons]
      have hframes : framesOf T (textOf kept) (a :: rest) =
          (if (textOf kept a).isSome then frameOf T a else 0) + framesOf T (textOf kept) rest := by
        by_cases hsome : (textOf kept a).isSome = true <;> simp [framesOf, hsome]
      rw [hframes]
      have hjoined := joined_le hascii (htaken a List.mem_cons_self) share content
      by_cases htext : a.isText = true
      · rw [List.filter_cons_of_pos (by rw [readFile_isText]; exact htext), List.foldl_cons]
        refine (hrest _).trans ?_
        rcases hjoined with ⟨text, htextOf, hle, hsome⟩ | hnone
        · rw [join, htextOf, if_pos hsome]
          dsimp only
          omega
        · rw [join, hnone]
          dsimp only
          omega
      · rw [List.filter_cons_of_neg (by rw [readFile_isText]; exact htext)]
        refine (hrest _).trans ?_
        omega

/-- **A message with its files takes at most half the chat**: where the words and the frames of the
files fit half the chat's budget, so do the words with the files, as much of each as is decided. -/
theorem message_within (T : Texts) (hascii : Counted.AsciiDigits T.isNumeric)
    (kept : String → Option String) (words : String) (attached : List Attachment) (chatBudget : ℕ)
    (htaken : ∀ a ∈ attached, TakenIn T kept a)
    (hfits : tokensOf T words + framesOf T (textOf kept) attached ≤ chatBudget / 2) :
    ∀ m ∈ withTextFiles (textOf kept) [{
        role := .user
        content := words
        attachments := readTextFiles T kept words chatBudget attached }],
      tokensOf T m.content ≤ chatBudget / 2 := by
  intro m hm
  rw [withTextFiles, List.map_singleton, List.mem_singleton] at hm
  subst hm
  split
  · dsimp only
    omega
  · dsimp only
    have hlength := length_share
      (chatBudget / 2 - (tokensOf T words + framesOf T (textOf kept) attached))
      ((attached.map (textOf kept)).map fun text => (text.map (tokensOf T)).getD 0)
    have hsum := sum_share
      (chatBudget / 2 - (tokensOf T words + framesOf T (textOf kept) attached))
      ((attached.map (textOf kept)).map fun text => (text.map (tokensOf T)).getD 0)
    rw [List.length_map, List.length_map] at hlength
    have hle := joins_le hascii htaken hlength words
    refine hle.trans ?_
    omega

/-- A short list, attached as a file. -/
def shoppingList : Attachment where
  id := "a1"
  name := "list.txt"
  mime := "text/plain"
  text := some (factsOf asciiTexts "milk\nbread\n")
  isText := true

/-- The question and the list's frame fit half the chat. -/
theorem list_fits : tokensOf asciiTexts "What is on it?" +
    framesOf asciiTexts (textOf fun _ => some "milk\nbread\n") [shoppingList] ≤ 100 / 2 := by
  have hwords : "What is on it?".toList =
      ['W', 'h', 'a', 't', ' ', 'i', 's', ' ', 'o', 'n', ' ', 'i', 't', '?'] :=
    String.toList_ofList
  have hname : "list.txt".toList = ['l', 'i', 's', 't', '.', 't', 'x', 't'] :=
    String.toList_ofList
  have hend : fileEnd.toList = ['\n', '-', '-', '-', ' ', 'E', 'n', 'd', ' ', 'o', 'f', ' ', 'f',
      'i', 'l', 'e', ' ', '-', '-', '-'] :=
    String.toList_ofList
  have hframes : framesOf asciiTexts (textOf fun _ => some "milk\nbread\n") [shoppingList] =
      frameOf asciiTexts shoppingList := by
    rw [framesOf, List.filter_cons_of_pos rfl, List.filter_nil, List.map_singleton,
      List.sum_singleton]
  have hfile : shoppingList.name = "list.txt" := rfl
  rw [hframes, frameOf, hfile, tokensOf_eq, tokensOf_eq, tokensOf_eq, fileHead_toList, headFront,
    noteTail_longest, beforePart_eq, longestPart_eq, afterPart_eq, hwords, hname, hend]
  decide +kernel

theorem list_within : ((withTextFiles (textOf fun _ => some "milk\nbread\n") [{
      role := .user
      content := "What is on it?"
      attachments := readTextFiles asciiTexts (fun _ => some "milk\nbread\n") "What is on it?" 100
        [shoppingList] }]).all fun m => tokensOf asciiTexts m.content ≤ 50) = true := by
  refine List.all_eq_true.mpr fun m hm => decide_eq_true ?_
  refine message_within asciiTexts (fun _ _ => rfl) (fun _ => some "milk\nbread\n") "What is on it?"
    [shoppingList] 100 (fun a ha _ contents hkept => ?_) list_fits m hm
  rw [List.mem_singleton.mp ha]
  cases hkept
  rfl

end Message

end LocalSpace.TextFiles
