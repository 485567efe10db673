import LocalSpace.Library.Lossy
import LocalSpace.Library.Utf16
import LocalSpace.Proto

/-!
# A text file's encoding

`text_file.rs`'s `decode`: bytes are read by a byte-order mark, as UTF-16 without one, as UTF-8 or
nearly, and otherwise as Windows-1251, in this order. A text in UTF-8 or marked UTF-16 is read as it
was written; one in Windows-1251 is where its bytes are not taken for another encoding's first.
-/

namespace LocalSpace.TextFiles

open Library Utf8

inductive Encoding where
  | utf8 | utf16Le | utf16Be | windows1251
deriving DecidableEq

inductive NotText where
  | empty | binary

structure Decoded where
  text : List Char
  encoding : Encoding

/-- Windows-1251's bytes 0x80 to 0xBF. -/
def cp1251High : List Char :=
  [0x0402, 0x0403, 0x201A, 0x0453, 0x201E, 0x2026, 0x2020, 0x2021,
    0x20AC, 0x2030, 0x0409, 0x2039, 0x040A, 0x040C, 0x040B, 0x040F,
    0x0452, 0x2018, 0x2019, 0x201C, 0x201D, 0x2022, 0x2013, 0x2014,
    0x0098, 0x2122, 0x0459, 0x203A, 0x045A, 0x045C, 0x045B, 0x045F,
    0x00A0, 0x040E, 0x045E, 0x0408, 0x00A4, 0x0490, 0x00A6, 0x00A7,
    0x0401, 0x00A9, 0x0404, 0x00AB, 0x00AC, 0x00AD, 0x00AE, 0x0407,
    0x00B0, 0x00B1, 0x0406, 0x0456, 0x0491, 0x00B5, 0x00B6, 0x00B7,
    0x0451, 0x2116, 0x0454, 0x00BB, 0x0458, 0x0405, 0x0455, 0x0457].map Char.ofNat

/-- What a sequence that is of no character is read as. -/
def replacement : Char := Char.ofNat 0xFFFD

def windows1251Char (b : UInt8) : Char :=
  if b.toNat < 0x80 then Char.ofNat b.toNat
  else if b.toNat < 0xC0 then cp1251High.getD (b.toNat - 0x80) replacement
  else Char.ofNat (0x0410 + (b.toNat - 0xC0))

def windows1251 (bytes : Bytes) : List Char :=
  bytes.map windows1251Char

def utf16 (bytes : Bytes) (littleEndian : Bool) : List Char :=
  (Utf16.decodeUnits (Utf16.units littleEndian bytes)).map fun unit => unit.getD replacement

/-- The zeros in the first place of each pair, and in the second. -/
def zeros : Bytes → ℕ × ℕ
  | a :: b :: rest =>
    let (even, odd) := zeros rest
    (even + if a = 0 then 1 else 0, odd + if b = 0 then 1 else 0)
  | _ => (0, 0)

/-- Which half holds the zeros says the byte order. -/
def utf16WithoutMark (bytes : Bytes) : Option Bool :=
  let sample := bytes.take (min bytes.length 4096 / 2 * 2)
  if sample.length < 4 then none
  else
    let pairs := sample.length / 2
    let (zerosEven, zerosOdd) := zeros sample
    if pairs * 6 ≤ zerosOdd * 10 ∧ zerosEven * 10 ≤ pairs then some true
    else if pairs * 6 ≤ zerosEven * 10 ∧ zerosOdd * 10 ≤ pairs then some false
    else none

def isControl (c : Char) : Bool :=
  c.toNat < 0x20 ∨ 0x7F ≤ c.toNat ∧ c.toNat < 0xA0

/-- Text has no NUL and few control characters besides tab, line feed, carriage return, form feed
and escape. -/
def looksLikeText (text : List Char) : Bool :=
  if text.contains (Char.ofNat 0) then false
  else
    let looked := text.take 65536
    let control := looked.countP fun c =>
      isControl c ∧ c.toNat ∉ [0x09, 0x0A, 0x0D, 0x0C, 0x1B]
    control * 100 ≤ looked.length

/-- `String::from_utf8_lossy`. -/
def lossy (bytes : Bytes) : List Char :=
  (items bytes).map fun item => item.getD replacement

/-- UTF-8, or nearly: more good characters beyond ASCII than invalid sequences. -/
def mostlyUtf8 (bytes : Bytes) : Option (List Char) :=
  match Utf8.decode bytes with
  | some text => some text
  | none => if bad bytes < good bytes then some (lossy bytes) else none

/-- The text and the encoding that bytes are read in. -/
@[grind =]
def read (bytes : Bytes) : List Char × Encoding :=
  match bytes with
  | 0xEF :: 0xBB :: 0xBF :: rest => (lossy rest, .utf8)
  | 0xFF :: 0xFE :: rest => (utf16 rest true, .utf16Le)
  | 0xFE :: 0xFF :: rest => (utf16 rest false, .utf16Be)
  | bytes =>
    match utf16WithoutMark bytes with
    | some littleEndian =>
      (utf16 bytes littleEndian, if littleEndian then .utf16Le else .utf16Be)
    | none =>
      match mostlyUtf8 bytes with
      | some text => (text, .utf8)
      | none => (windows1251 bytes, .windows1251)

/-- Read bytes as text, or say why they are not. -/
def decode (bytes : Bytes) : Except NotText Decoded :=
  let (text, encoding) := read bytes
  if (trim (String.ofList text)).isEmpty then .error .empty
  else if !looksLikeText text then .error .binary
  else .ok ⟨text, encoding⟩

/-! ### What bytes are not taken for -/

/-- Bytes begin with a byte-order mark. -/
def Marked (bytes : Bytes) : Prop :=
  [0xEF, 0xBB, 0xBF] <+: bytes ∨ [0xFF, 0xFE] <+: bytes ∨ [0xFE, 0xFF] <+: bytes

/-- A text that is not blank and looks like one. -/
def IsText (text : List Char) : Prop :=
  (trim (String.ofList text)).isEmpty = false ∧ looksLikeText text = true

instance (text : List Char) : Decidable (IsText text) :=
  inferInstanceAs (Decidable (_ ∧ _))

/-- The letters А to я. -/
def letters (text : List Char) : ℕ :=
  text.countP fun c => 0x0410 ≤ c.toNat ∧ c.toNat ≤ 0x044F

/-- The other characters beyond ASCII. -/
def others (text : List Char) : ℕ :=
  text.countP fun c => 128 ≤ c.toNat ∧ ¬(0x0410 ≤ c.toNat ∧ c.toNat ≤ 0x044F)

section Reading

variable {bytes : Bytes} {text : List Char} {encoding : Encoding}

theorem decode_of_read (h : read bytes = (text, encoding)) (htext : IsText text) :
    decode bytes = .ok ⟨text, encoding⟩ := by
  simp [decode, h, htext.1, htext.2]

theorem read_of_decode {decoded : Decoded} (h : decode bytes = .ok decoded) :
    read bytes = (decoded.text, decoded.encoding) := by
  simp only [decode] at h
  split_ifs at h
  cases h
  rfl

/-- Bytes without a mark are read by what they are. -/
theorem read_unmarked (h : ¬Marked bytes) : read bytes =
    match utf16WithoutMark bytes with
    | some littleEndian =>
      (utf16 bytes littleEndian, if littleEndian then .utf16Le else .utf16Be)
    | none =>
      match mostlyUtf8 bytes with
      | some text => (text, .utf8)
      | none => (windows1251 bytes, .windows1251) := by
  rw [read.eq_def]
  split
  · exact absurd (.inl ⟨_, rfl⟩) h
  · exact absurd (.inr (.inl ⟨_, rfl⟩)) h
  · exact absurd (.inr (.inr ⟨_, rfl⟩)) h
  · rfl

theorem zeros_of_no_zero (h : 0 ∉ bytes) : zeros bytes = (0, 0) := by
  fun_induction zeros bytes with
  | case1 a b rest even odd hrest ih =>
    simp only [List.mem_cons, not_or] at h
    have hzero := ih h.2.2
    rw [hrest] at hzero
    cases hzero
    simp [Ne.symm h.1, Ne.symm h.2.1]
  | case2 => rfl

theorem utf16WithoutMark_of_no_zero (h : 0 ∉ bytes) : utf16WithoutMark bytes = none := by
  simp only [utf16WithoutMark, zeros_of_no_zero fun hmem => h (List.mem_of_mem_take hmem)]
  split_ifs with hshort hodd
  · rfl
  · omega
  · rfl

theorem no_nul (h : IsText text) : Char.ofNat 0 ∉ text := by
  intro hmem
  have hlooks := h.2
  rw [looksLikeText, if_pos (List.contains_iff_mem.mpr hmem)] at hlooks
  cases hlooks

theorem lossy_encode (text : List Char) : lossy (encode text) = text := by
  rw [lossy, items_encode, List.map_map]
  exact List.map_id text

theorem not_marked_encode (h : text.head? ≠ some (Char.ofNat 0xFEFF)) : ¬Marked (encode text) := by
  rintro (⟨rest, hrest⟩ | ⟨rest, hrest⟩ | ⟨rest, hrest⟩)
  · have hmark : encode [Char.ofNat 0xFEFF] = [0xEF, 0xBB, 0xBF] := by decide
    rw [← hmark] at hrest
    obtain ⟨more, rfl, -⟩ := of_encode_append hrest.symm
    exact h rfl
  · have hmem : 0xFF ∈ encode text := by
      rw [← hrest]
      exact List.mem_cons_self
    exact absurd (toNat_lt_of_mem_encode hmem) (by decide)
  · have hmem : 0xFE ∈ encode text := by
      rw [← hrest]
      exact List.mem_cons_self
    exact absurd (toNat_lt_of_mem_encode hmem) (by decide)

/-- UTF-8 without a mark is read as it was written. -/
theorem read_encode (h : text.head? ≠ some (Char.ofNat 0xFEFF)) (htext : IsText text) :
    read (encode text) = (text, .utf8) := by
  have hzero : 0 ∉ encode text := fun hmem => no_nul htext (mem_encode_ascii hmem (by decide))
  rw [read_unmarked (not_marked_encode h), utf16WithoutMark_of_no_zero hzero]
  simp only [mostlyUtf8, Utf8.decode_encode]

theorem utf16_bytesOf (littleEndian : Bool) (text : List Char) :
    utf16 (Utf16.bytesOf littleEndian (Utf16.encodeUnits text)) littleEndian = text := by
  rw [utf16, Utf16.decodeUnits_units, List.map_map]
  exact List.map_id text

end Reading

/-! ### Windows-1251 -/

section Cyrillic

variable {bytes : Bytes} {text : List Char}

/-- What each byte is read as. -/
theorem windows1251Char_spec (b : UInt8) :
    (windows1251Char b = Char.ofNat 0 ↔ b = 0) ∧
      (128 ≤ (windows1251Char b).toNat ↔ 128 ≤ b.toNat) ∧
      (0x0410 ≤ (windows1251Char b).toNat ∧ (windows1251Char b).toNat ≤ 0x044F ↔
        192 ≤ b.toNat) := by
  have hall : ∀ n < 256, (windows1251Char (UInt8.ofNat n) = Char.ofNat 0 ↔ UInt8.ofNat n = 0) ∧
      (128 ≤ (windows1251Char (UInt8.ofNat n)).toNat ↔ 128 ≤ (UInt8.ofNat n).toNat) ∧
      (0x0410 ≤ (windows1251Char (UInt8.ofNat n)).toNat ∧
        (windows1251Char (UInt8.ofNat n)).toNat ≤ 0x044F ↔ 192 ≤ (UInt8.ofNat n).toNat) := by
    decide +kernel
  have hb := hall b.toNat b.toNat_lt
  rwa [UInt8.ofNat_toNat] at hb

theorem letters_windows1251 (bytes : Bytes) : letters (windows1251 bytes) = high bytes := by
  rw [letters, windows1251, List.countP_map, high]
  congr 1
  funext b
  exact decide_eq_decide.mpr (windows1251Char_spec b).2.2

theorem others_windows1251 (bytes : Bytes) : others (windows1251 bytes) = low bytes := by
  rw [others, windows1251, List.countP_map, low]
  congr 1
  funext b
  obtain ⟨-, hbeyond, hletter⟩ := windows1251Char_spec b
  refine decide_eq_decide.mpr ?_
  rw [hbeyond, hletter, Continues, Nat.not_le]

/-- Where letters are twice the other characters beyond ASCII, bytes are not taken for UTF-8. -/
theorem mostlyUtf8_windows1251 (hbeyond : ∃ b ∈ bytes, 128 ≤ b.toNat)
    (h : 2 * others (windows1251 bytes) ≤ letters (windows1251 bytes)) :
    mostlyUtf8 bytes = none := by
  rw [letters_windows1251, others_windows1251] at h
  have hsome : 0 < high bytes + low bytes := by
    obtain ⟨b, hmem, hb⟩ := hbeyond
    rcases Nat.lt_or_ge b.toNat 192 with hlt | hge
    · have : 0 < low bytes := List.countP_pos_iff.mpr ⟨b, hmem, decide_eq_true ⟨hb, hlt⟩⟩
      omega
    · have : 0 < high bytes := List.countP_pos_iff.mpr ⟨b, hmem, decide_eq_true hge⟩
      omega
  rw [mostlyUtf8]
  rcases hdecode : Utf8.decode bytes with _ | decoded
  · -- each character taken for one of UTF-8 has one of the other characters in it
    obtain ⟨hgood, hhigh⟩ := counts bytes
    exact if_neg (by omega)
  · -- in UTF-8 the letters' bytes could be no more than the others'
    have hle := high_le_low_encode decoded
    rw [encode_of_decode hdecode] at hle
    omega

/-- Windows-1251 is read exactly where its bytes are taken for nothing else. -/
theorem decode_windows1251_iff (htext : IsText (windows1251 bytes)) :
    decode bytes = .ok ⟨windows1251 bytes, .windows1251⟩ ↔
      ¬Marked bytes ∧ mostlyUtf8 bytes = none := by
  have hzero : 0 ∉ bytes := by
    intro hmem
    refine no_nul htext ?_
    rw [← (windows1251Char_spec 0).1.mpr rfl]
    exact List.mem_map_of_mem hmem
  have hmark := utf16WithoutMark_of_no_zero hzero
  constructor
  · intro h
    have hread := read_of_decode h
    have hunmarked : ¬Marked bytes := by
      have hencoding := congrArg Prod.snd hread
      rintro (⟨rest, rfl⟩ | ⟨rest, rfl⟩ | ⟨rest, rfl⟩) <;> exact nomatch hencoding
    refine ⟨hunmarked, ?_⟩
    rw [read_unmarked hunmarked, hmark] at hread
    rcases hmostly : mostlyUtf8 bytes with _ | text
    · rfl
    · rw [hmostly] at hread
      cases hread
  · rintro ⟨hunmarked, hmostly⟩
    refine decode_of_read ?_ htext
    rw [read_unmarked hunmarked, hmark]
    simp only [hmostly]

end Cyrillic

/-! ### What was written is read -/

/-- A text is read as it was written: in UTF-8, in UTF-16 with a mark, and in Windows-1251 where its
bytes are taken for no encoding before it. -/
theorem written_read {text : List Char} (h : IsText text) :
    (text.head? ≠ some (Char.ofNat 0xFEFF) → decode (encode text) = .ok ⟨text, .utf8⟩) ∧
      decode ([0xEF, 0xBB, 0xBF] ++ encode text) = .ok ⟨text, .utf8⟩ ∧
      decode ([0xFF, 0xFE] ++ Utf16.bytesOf true (Utf16.encodeUnits text)) =
        .ok ⟨text, .utf16Le⟩ ∧
      decode ([0xFE, 0xFF] ++ Utf16.bytesOf false (Utf16.encodeUnits text)) =
        .ok ⟨text, .utf16Be⟩ ∧
      ∀ bytes, windows1251 bytes = text → (∃ b ∈ bytes, 128 ≤ b.toNat) →
        (decode bytes = .ok ⟨text, .windows1251⟩ ↔ ¬Marked bytes ∧ mostlyUtf8 bytes = none) ∧
        (¬Marked bytes → 2 * others text ≤ letters text →
          decode bytes = .ok ⟨text, .windows1251⟩) := by
  refine ⟨fun hhead => ?_, ?_, ?_, ?_, ?_⟩
  · exact decode_of_read (read_encode hhead h) h
  · refine decode_of_read ?_ h
    change (lossy (encode text), _) = _
    rw [lossy_encode]
  · refine decode_of_read ?_ h
    change (utf16 (Utf16.bytesOf true (Utf16.encodeUnits text)) true, _) = _
    rw [utf16_bytesOf]
  · refine decode_of_read ?_ h
    change (utf16 (Utf16.bytesOf false (Utf16.encodeUnits text)) false, _) = _
    rw [utf16_bytesOf]
  · rintro bytes rfl hbeyond
    refine ⟨decode_windows1251_iff h, fun hunmarked hletters => ?_⟩
    exact (decode_windows1251_iff h).mpr ⟨hunmarked, mostlyUtf8_windows1251 hbeyond hletters⟩

/-- "Да." in Windows-1251. -/
theorem yes_read : decode [0xC4, 0xE0, 0x2E] =
    .ok ⟨windows1251 [0xC4, 0xE0, 0x2E], .windows1251⟩ := by
  have htext : IsText (windows1251 [0xC4, 0xE0, 0x2E]) := by decide
  have hmark : ¬Marked [0xC4, 0xE0, 0x2E] := by
    rintro (h | h | h) <;> exact absurd h (by decide)
  have hletters : 2 * others (windows1251 [0xC4, 0xE0, 0x2E]) ≤
      letters (windows1251 [0xC4, 0xE0, 0x2E]) := by decide
  exact ((written_read htext).2.2.2.2 _ rfl ⟨0xC4, by decide, by decide⟩).2 hmark hletters

/-- The word "Её" in Windows-1251 is also a letter in UTF-8, and a text that begins with what a mark
is loses it. -/
theorem her_misread :
    (IsText (windows1251 [0xC5, 0xB8]) ∧
        decode [0xC5, 0xB8] = .ok ⟨[Char.ofNat 0x178], .utf8⟩ ∧
        windows1251 [0xC5, 0xB8] ≠ [Char.ofNat 0x178]) ∧
      IsText [Char.ofNat 0xFEFF, 'a'] ∧
      decode (encode [Char.ofNat 0xFEFF, 'a']) = .ok ⟨['a'], .utf8⟩ := by
  have hher : read [0xC5, 0xB8] = ([Char.ofNat 0x178], .utf8) := by decide
  have hmark : read (encode [Char.ofNat 0xFEFF, 'a']) = (['a'], .utf8) := by decide +kernel
  refine ⟨⟨by decide, decode_of_read hher (by decide), by decide⟩,
    by decide, decode_of_read hmark (by decide)⟩

end LocalSpace.TextFiles
