import Mathlib.Data.List.TakeWhile
import LocalSpace.Library.Utf8
import LocalSpace.Gateway

/-!
# A response's body

`stream.rs`'s `Body`: the bytes a response carries, read out of its framing, a length or HTTP's
chunks, in reads of any sizes, as the socket's bytes arrive. A whole response is read as exactly its
payload and then its end; one that is cut short is never read to an end, but to an error.
-/

namespace LocalSpace.Bodies

open Library Net

/-! ### The reader -/

inductive Framing where
  | chunked
  | length (n : ℕ)
  | untilClosed

inductive ReadError where
  | endedInSize | sizeNotText | notASize | endedInLineEnd | noLineEnd | endedEarly

structure Body where
  /-- What the socket has still to give before it closes. -/
  rest : Bytes
  framing : Framing
  left : ℕ
  done : Bool

@[grind =]
def Body.new (bytes : Bytes) (framing : Framing) : Body where
  rest := bytes
  framing := framing
  left := match framing with
    | .length n => n
    | .chunked | .untilClosed => 0
  done := false

def hexNumber (digits : List Char) : ℕ :=
  digits.foldl (fun n c => n * 16 + (hexValue c).getD 0) 0

def afterPlus : List Char → List Char
  | '+' :: rest => rest
  | all => all

/-- `u64::from_str_radix`, in base sixteen. -/
def fromHex (text : List Char) : Option ℕ :=
  let digits := afterPlus text
  if digits.isEmpty || !digits.all fun c => (hexValue c).isSome then none
  else (some (hexNumber digits)).filter fun n => n < 2 ^ 64

/-- The size on a chunk's size line: hexadecimal, maybe extensions. -/
def sizeOf (line : Bytes) : Except ReadError ℕ :=
  match Utf8.decode line with
  | none => .error .sizeNotText
  | some text =>
    match fromHex (trim (String.ofList (text.takeWhile (· ≠ ';')))).toList with
    | none => .error .notASize
    | some size => .ok size

/-- A line of so many bytes at most, and what comes after it. -/
def takeLine (most : ℕ) (bytes : Bytes) : Bytes × Bytes :=
  let window := bytes.take most
  let line := window.takeWhile (· ≠ 10) ++ (window.dropWhile (· ≠ 10)).take 1
  (line, bytes.drop line.length)

namespace Body

variable (b : Body)

/-- The size line of the next chunk. -/
def nextChunk : Except ReadError ℕ × Body :=
  let (line, rest) := takeLine 1024 b.rest
  let b := { b with rest := rest }
  if line.getLast? = some 10 then (sizeOf line, b) else (.error .endedInSize, b)

/-- The line end after a chunk's bytes, or after the last chunk. -/
def lineEnd : Except ReadError Unit × Body :=
  match b.rest with
  | c :: d :: rest =>
    ({ b with rest := rest } |> fun b =>
      if c = 13 ∧ d = 10 then (.ok (), b) else (.error .noLineEnd, b))
  | _ => (.error .endedInLineEnd, { b with rest := [] })

/-- What the socket gives of so much room: of so many bytes that are there, one at least. -/
def innerRead (arrived most : ℕ) : Bytes × Body :=
  let n := min (max arrived 1) most
  (b.rest.take n, { b with rest := b.rest.drop n })

/-- What is read of the current chunk, or of the whole body, once it is known what is left. -/
def readLeft (arrived buf : ℕ) : Except ReadError Bytes × Body :=
  let (bytes, b) := b.innerRead arrived (min buf b.left)
  if bytes = [] then (.error .endedEarly, b)
  else
    let b := { b with left := b.left - bytes.length }
    match b.framing with
    | .chunked =>
      if b.left = 0 then
        match b.lineEnd with
        | (.ok _, b) => (.ok bytes, b)
        | (.error e, b) => (.error e, b)
      else (.ok bytes, b)
    | _ => (.ok bytes, b)

/-- `Read::read`, with so much room, where so many bytes are there. -/
@[grind =]
def read (arrived buf : ℕ) : Except ReadError Bytes × Body :=
  if b.done ∨ buf = 0 then (.ok [], b)
  else
    match b.framing with
    | .untilClosed =>
      let (bytes, b) := b.innerRead arrived buf
      (.ok bytes, b)
    | .length _ =>
      if b.left = 0 then (.ok [], { b with done := true }) else b.readLeft arrived buf
    | .chunked =>
      if b.left = 0 then
        match b.nextChunk with
        | (.error e, b) => (.error e, b)
        | (.ok 0, b) =>
          -- No trailers are sent to us; the empty line ends it.
          match b.lineEnd with
          | (.error e, b) => (.error e, b)
          | (.ok _, b) => (.ok [], { b with done := true })
        | (.ok size, b) => { b with left := size }.readLeft arrived buf
      else b.readLeft arrived buf

end Body

/-- How reading ends. -/
inductive End where
  | eof
  | failed (e : ReadError)

/-- What reads with so much room, where so many bytes are there, give one after another: the bytes,
and the end, where they come to one. -/
@[grind =]
def run : Body → List (ℕ × ℕ) → Bytes × Option End
  | _, [] => ([], none)
  | b, (arrived, buf) :: rest =>
    match b.read arrived buf with
    | (.error e, _) => ([], some (.failed e))
    | (.ok bytes, b) =>
      if bytes = [] ∧ buf ≠ 0 then ([], some .eof)
      else
        let later := run b rest
        (bytes ++ later.1, later.2)

/-! ### A response -/

/-- A size line: digits, blanks, and maybe an extension. -/
structure SizeLine (n : ℕ) where
  digits : List Char
  blanks : List Char
  extension : Option (List Char)
  digits_ne : digits ≠ []
  digits_hex : ∀ c ∈ digits, (hexValue c).isSome
  digits_value : hexNumber digits = n
  blanks_blank : ∀ c ∈ blanks, c = ' ' ∨ c = '\t'
  extension_line : ∀ text ∈ extension, '\n' ∉ text

namespace SizeLine

variable {n : ℕ} (s : SizeLine n)

@[grind =]
def text : List Char :=
  s.digits ++ s.blanks ++ (s.extension.map (';' :: ·)).getD []

@[grind =]
def bytes : Bytes :=
  Utf8.encode (s.text ++ ['\r', '\n'])

end SizeLine

/-- A chunk: some bytes of the payload, and their size line. -/
structure Chunk where
  data : Bytes
  size : SizeLine data.length
  data_ne : data ≠ []
  data_length : data.length < 2 ^ 64

/-- What stands before some bytes of the payload, and these. -/
structure Piece where
  line : Bytes
  data : Bytes

@[grind =]
def Piece.bytes (p : Piece) : Bytes :=
  p.line ++ (p.data ++ [13, 10])

@[grind =]
def Chunk.piece (c : Chunk) : Piece where
  line := c.size.bytes
  data := c.data

/-- The bytes of the payload in the first `n` bytes of some pieces. -/
@[grind =]
def contained : List Piece → ℕ → Bytes
  | [], _ => []
  | p :: ps, n => (p.data.take (n - p.line.length)) ++ contained ps (n - p.bytes.length)

/-- The first `n` bytes of some pieces end after all of a piece's data and before its line end is
whole. -/
@[grind =]
def CutAtLineEnd : List Piece → ℕ → Prop
  | [], _ => False
  | p :: ps, n =>
    n < p.bytes.length ∧ p.bytes.length ≤ n + 2 ∨
      p.bytes.length ≤ n ∧ CutAtLineEnd ps (n - p.bytes.length)

/-- A payload in chunks, with the last one's size line. -/
structure Chunked where
  chunks : List Chunk
  last : SizeLine 0

namespace Chunked

variable (r : Chunked)

@[grind =]
def pieces : List Piece :=
  r.chunks.map Chunk.piece

def payload : Bytes :=
  r.chunks.flatMap Chunk.data

@[grind =]
def bytes : Bytes :=
  r.pieces.flatMap Piece.bytes ++ (r.last.bytes ++ [13, 10])

/-- Its size lines have at most so many bytes as are read of one. -/
def Short : Prop :=
  (∀ c ∈ r.chunks, c.size.bytes.length ≤ 1024) ∧ r.last.bytes.length ≤ 1024

end Chunked

/-- The reads that have room for a byte. -/
def roomy (reads : List (ℕ × ℕ)) : ℕ :=
  reads.countP fun read => read.2 ≠ 0

/-- Reads give a payload and then its end: they never fail, and each that comes before the end and
has room gives some of it. -/
def Gives (b : Body) (payload : Bytes) : Prop :=
  ∀ reads, match run b reads with
    | (got, none) => got <+: payload ∧ roomy reads ≤ got.length
    | (got, some .eof) => got = payload
    | (_, some (.failed _)) => False

/-- Reads give some bytes and then an error, never an end; all of them where they are `kept`. -/
def Breaks (b : Body) (bytes : Bytes) (kept : Prop) : Prop :=
  ∀ reads, match run b reads with
    | (got, none) => got <+: bytes ∧ roomy reads ≤ got.length
    | (_, some .eof) => False
    | (got, some (.failed _)) => got <+: bytes ∧ (kept → got = bytes)

/-! ### Size lines -/

section Lines

variable {n m : ℕ} {body more bytes : Bytes}

theorem takeLine_whole (h : 10 ∉ body) (hlength : body.length < m) :
    takeLine m (body ++ 10 :: more) = (body ++ [10], more) := by
  have htake : (body ++ 10 :: more).take m = body ++ 10 :: more.take (m - body.length - 1) := by
    rw [List.take_append, List.take_of_length_le (by omega)]
    obtain ⟨k, hk⟩ := Nat.exists_eq_succ_of_ne_zero (n := m - body.length) (by omega)
    rw [hk, List.take_succ_cons, Nat.succ_sub_one]
  have hbody : ∀ x ∈ body, decide (x ≠ 10) = true := by
    intro x hx
    exact decide_eq_true fun hten => h (hten ▸ hx)
  have hline : (takeLine m (body ++ 10 :: more)).1 = body ++ [10] := by
    simp only [takeLine, htake]
    rw [List.takeWhile_append_of_pos hbody, List.dropWhile_append_of_pos hbody]
    simp
  refine Prod.ext hline ?_
  change List.drop (takeLine m (body ++ 10 :: more)).1.length _ = _
  rw [hline, List.length_append, List.length_singleton, ← List.drop_drop, List.drop_left]
  rfl

theorem takeLine_cut (h : 10 ∉ bytes.take m) : (takeLine m bytes).1.getLast? ≠ some 10 := by
  have hwindow : ∀ x ∈ bytes.take m, decide (x ≠ 10) = true := by
    intro x hx
    exact decide_eq_true fun hten => h (hten ▸ hx)
  have hline : (takeLine m bytes).1 = bytes.take m := by
    simp only [takeLine]
    rw [List.takeWhile_eq_self_iff.mpr hwindow, List.dropWhile_eq_nil_iff.mpr hwindow]
    simp
  rw [hline]
  intro hlast
  exact h (List.mem_of_getLast? hlast)

theorem hexValue_range {c : Char} (h : (hexValue c).isSome) :
    48 ≤ c.toNat ∧ c.toNat ≤ 57 ∨ 65 ≤ c.toNat ∧ c.toNat ≤ 70 ∨
      97 ≤ c.toNat ∧ c.toNat ≤ 102 := by
  rw [hexValue] at h
  split_ifs at h with hdigit hlow hhigh
  · simp only [Char.isDigit, Bool.and_eq_true, decide_eq_true_eq] at hdigit
    exact .inl ⟨UInt32.le_iff_toNat_le.mp hdigit.1, UInt32.le_iff_toNat_le.mp hdigit.2⟩
  · exact .inr (.inr ⟨UInt32.le_iff_toNat_le.mp hlow.1, UInt32.le_iff_toNat_le.mp hlow.2⟩)
  · exact .inr (.inl ⟨UInt32.le_iff_toNat_le.mp hhigh.1, UInt32.le_iff_toNat_le.mp hhigh.2⟩)
  · cases h

theorem hexValue_plain {c : Char} (h : (hexValue c).isSome) :
    c ≠ '+' ∧ c ≠ ';' ∧ c ≠ '\n' ∧ isWhitespace c = false := by
  have hrange := hexValue_range h
  refine ⟨?_, ?_, ?_, ?_⟩
  · rintro rfl
    exact absurd hrange (by decide)
  · rintro rfl
    exact absurd hrange (by decide)
  · rintro rfl
    exact absurd hrange (by decide)
  · simp only [isWhitespace, decide_eq_false_iff_not, List.contains_eq_mem, List.mem_cons,
      List.not_mem_nil, or_false, decide_eq_true_eq]
    omega

theorem fromHex_digits {digits : List Char} (hne : digits ≠ [])
    (hhex : ∀ c ∈ digits, (hexValue c).isSome) (hlt : hexNumber digits < 2 ^ 64) :
    fromHex digits = some (hexNumber digits) := by
  have hplus : afterPlus digits = digits := by
    rw [afterPlus.eq_def]
    split
    · exact absurd rfl (hexValue_plain (hhex '+' List.mem_cons_self)).1
    · rfl
  have hall : digits.all (fun c => (hexValue c).isSome) = true := List.all_eq_true.mpr hhex
  have hempty : digits.isEmpty = false := List.isEmpty_eq_false_iff.mpr hne
  rw [fromHex]
  simp only [hplus, hall, hempty]
  rw [if_neg (by decide)]
  refine Option.filter_some_pos ?_
  exact decide_eq_true hlt

/-- Text between blanks is left where they are cut off. -/
theorem trim_blanks {text blanks : List Char} (hne : text ≠ [])
    (htext : ∀ c ∈ text, isWhitespace c = false) (hblanks : ∀ c ∈ blanks, isWhitespace c = true) :
    (trim (String.ofList (text ++ blanks))).toList = text := by
  have hfirst : (text ++ blanks).dropWhile isWhitespace = text ++ blanks := by
    rcases text with _ | ⟨c, text⟩
    · exact absurd rfl hne
    · simp [htext c List.mem_cons_self]
  have hlast : text.reverse.dropWhile isWhitespace = text.reverse := by
    have hmem := fun c (hc : c ∈ text.reverse) => htext c (List.mem_reverse.mp hc)
    revert hmem
    rcases text.reverse with _ | ⟨c, rest⟩
    · simp
    · intro hmem
      simp [hmem c List.mem_cons_self]
  rw [trim, String.toList_ofList, String.toList_ofList, hfirst, List.reverse_append,
    List.dropWhile_append_of_pos (fun c hc => hblanks c (List.mem_reverse.mp hc)), hlast,
    List.reverse_reverse]

namespace SizeLine

variable (s : SizeLine n)

theorem digits_plain {c : Char} (h : c ∈ s.digits) :
    c ≠ '+' ∧ c ≠ ';' ∧ c ≠ '\n' ∧ isWhitespace c = false :=
  hexValue_plain (s.digits_hex c h)

/-- What stands before the first `;` is the digits and blanks. -/
theorem before_extension : ∃ blanks, (∀ c ∈ blanks, isWhitespace c = true) ∧
    (s.text ++ ['\r', '\n']).takeWhile (· ≠ ';') = s.digits ++ blanks := by
  have hblank : ∀ c ∈ s.blanks, isWhitespace c = true := by
    intro c hc
    rcases s.blanks_blank c hc with rfl | rfl <;> decide
  have hpos : ∀ c ∈ s.digits ++ s.blanks, decide (c ≠ ';') = true := by
    intro c hc
    rcases List.mem_append.mp hc with hc | hc
    · exact decide_eq_true (s.digits_plain hc).2.1
    · rcases s.blanks_blank c hc with rfl | rfl <;> decide
  rw [text, List.append_assoc, List.takeWhile_append_of_pos hpos]
  rcases s.extension with _ | text
  · refine ⟨s.blanks ++ ['\r', '\n'], ?_, by simp⟩
    intro c hc
    simp only [List.mem_append, List.mem_cons, List.not_mem_nil, or_false] at hc
    rcases hc with hc | rfl | rfl
    · exact hblank c hc
    · decide
    · decide
  · exact ⟨s.blanks, hblank, by simp⟩

theorem sizeOf_bytes (h : n < 2 ^ 64) : sizeOf s.bytes = .ok n := by
  obtain ⟨blanks, hblanks, htake⟩ := s.before_extension
  have hvalue := fromHex_digits s.digits_ne s.digits_hex (by rw [s.digits_value]; exact h)
  have htrim := trim_blanks s.digits_ne (fun c hc => (s.digits_plain hc).2.2.2) hblanks
  simp only [sizeOf, bytes, Utf8.decode_encode, htake, htrim, hvalue, s.digits_value]

/-- A size line's one line feed is its last byte. -/
theorem bytes_eq : ∃ body, 10 ∉ body ∧ s.bytes = body ++ [10] := by
  refine ⟨Utf8.encode (s.text ++ ['\r']), ?_, ?_⟩
  · intro hmem
    have hten : '\n' ∈ s.text ++ ['\r'] := Utf8.mem_encode_ascii hmem (by decide)
    rw [text, List.mem_append, List.mem_append, List.mem_append] at hten
    rcases hten with ((hten | hten) | hten) | hten
    · exact (s.digits_plain hten).2.2.1 rfl
    · rcases s.blanks_blank _ hten with h | h <;> cases h
    · rcases hextension : s.extension with _ | text
      · simp [hextension] at hten
      · rw [hextension] at hten
        rcases List.mem_cons.mp hten with h | h
        · cases h
        · exact s.extension_line text hextension h
    · cases List.mem_singleton.mp hten
  · rw [bytes, show s.text ++ ['\r', '\n'] = (s.text ++ ['\r']) ++ ['\n'] by simp,
      Utf8.encode_append]
    rfl

end SizeLine

end Lines

/-! ### What one read takes -/

section Taking

variable {d : Bytes} {n k : ℕ}

/-- A read has room for a byte at least, and for no more than is left. -/
theorem room_cases (arrived : ℕ) {buf : ℕ} (hbuf : buf ≠ 0) (hd : d ≠ []) :
    ∃ k, min (max arrived 1) (min buf d.length) = k ∧ 0 < k ∧ k ≤ d.length := by
  have hpos := List.length_pos_iff.mpr hd
  refine ⟨_, rfl, ?_, ?_⟩ <;> omega

theorem take_split {j : ℕ} (hj : j ≤ n) : d.take n = d.take j ++ (d.drop j).take (n - j) := by
  rw [← List.take_add, Nat.add_sub_cancel' hj]

theorem drop_take_min (d : Bytes) (k n : ℕ) :
    (d.take n).drop k = (d.drop (min k n)).take (n - min k n) := by
  rw [List.drop_take]
  rcases Nat.le_total k n with hle | hle
  · rw [Nat.min_eq_left hle]
  · rw [Nat.min_eq_right hle, Nat.sub_self, Nat.sub_eq_zero_of_le hle, List.take_zero,
      List.take_zero]

/-- Where some are there, a read takes some. -/
theorem take_min_ne (hd : d ≠ []) (hk : 0 < k) (hn : 0 < n) : d.take (min k n) ≠ [] := by
  rw [Ne, List.take_eq_nil_iff]
  rintro (hzero | hnil)
  · omega
  · exact hd hnil

end Taking

/-! ### Where the reader stands -/

section Standing

/-- What follows where the reader stands: what is left of a chunk, and the chunks after it. -/
@[grind =]
def ahead (r : Chunked) (d : Bytes) : Bytes :=
  if d = [] then r.bytes else d ++ ([13, 10] ++ r.bytes)

/-- What follows where the reader stands, in pieces. -/
def piecesAhead (r : Chunked) (d : Bytes) : List Piece :=
  if d = [] then r.pieces else ⟨[], d⟩ :: r.pieces

/-- The reader has what is left of a chunk before it, none of it between two chunks, and chunks
after it, and of all these so many bytes are to come. -/
structure Stands (r : Chunked) (d : Bytes) (n : ℕ) (b : Body) : Prop where
  framing : b.framing = .chunked
  done : b.done = false
  left : b.left = d.length
  rest : b.rest = (ahead r d).take n
  length_le : n ≤ (ahead r d).length
  short : r.Short

/-- What a read comes to. -/
inductive Outcome (r : Chunked) (d : Bytes) (n : ℕ) : Except ReadError Bytes × Body → Prop
  | eof {b : Body} (hn : n = (ahead r d).length) (h : contained (piecesAhead r d) n = []) :
    Outcome r d n (.ok [], b)
  | failed {e : ReadError} {b : Body} (hn : n < (ahead r d).length)
    (h : contained (piecesAhead r d) n = [] ∨ CutAtLineEnd (piecesAhead r d) n) :
    Outcome r d n (.error e, b)
  | gave {bytes : Bytes} {b : Body} {r' : Chunked} {d' : Bytes} {n' : ℕ} (hne : bytes ≠ [])
    (hstands : Stands r' d' n' b)
    (hcontained : contained (piecesAhead r d) n = bytes ++ contained (piecesAhead r' d') n')
    (hcut : CutAtLineEnd (piecesAhead r' d') n' → CutAtLineEnd (piecesAhead r d) n)
    (hlength : (ahead r d).length + n' = n + (ahead r' d').length) : Outcome r d n (.ok bytes, b)

variable {r : Chunked} {b : Body} {d : Bytes} {n : ℕ} {ps : List Piece}

theorem contained_zero (ps : List Piece) : contained ps 0 = [] := by
  induction ps with
  | nil => rfl
  | cons p ps ih => simp [contained, ih]

theorem Piece.bytes_length (p : Piece) : p.bytes.length = p.line.length + p.data.length + 2 := by
  simp only [Piece.bytes, List.length_append, List.length_cons, List.length_nil]
  omega

theorem contained_whole (h : (ps.flatMap Piece.bytes).length ≤ n) :
    contained ps n = ps.flatMap Piece.data := by
  induction ps generalizing n with
  | nil => rfl
  | cons p ps ih =>
    rw [List.flatMap_cons, List.length_append] at h
    have hp := p.bytes_length
    rw [contained, List.take_of_length_le (by omega), ih (by omega), List.flatMap_cons]

theorem Chunked.payload_eq (r : Chunked) : contained r.pieces r.bytes.length = r.payload := by
  rw [contained_whole (by simp [Chunked.bytes])]
  simp [Chunked.pieces, Chunked.payload, List.flatMap_map, Chunk.piece]

/-- The line end's bytes are read where both are there. -/
theorem lineEnd_cases {more : Bytes} (h : b.rest = ([13, 10] ++ more).take n) :
    2 ≤ n ∧ b.lineEnd = (.ok (), { b with rest := more.take (n - 2) }) ∨
      n < 2 ∧ ∃ e b', b.lineEnd = (.error e, b') := by
  rcases n with _ | _ | n
  · right
    simp [Body.lineEnd, h]
  · right
    simp [Body.lineEnd, h]
  · left
    simp [Body.lineEnd, h]

/-- The size line's bytes are read where all are there. -/
theorem nextChunk_cases {m : ℕ} (s : SizeLine m) {more : Bytes}
    (h : b.rest = (s.bytes ++ more).take n) (hshort : s.bytes.length ≤ 1024) (hm : m < 2 ^ 64) :
    s.bytes.length ≤ n ∧
        b.nextChunk = (.ok m, { b with rest := more.take (n - s.bytes.length) }) ∨
      n < s.bytes.length ∧ ∃ e b', b.nextChunk = (.error e, b') := by
  obtain ⟨body, hbody, heq⟩ := s.bytes_eq
  have hlength : s.bytes.length = body.length + 1 := by simp [heq]
  rcases Nat.lt_or_ge n s.bytes.length with hn | hn
  · refine .inr ⟨hn, ?_⟩
    have hten : 10 ∉ b.rest.take 1024 := by
      rw [h, heq, List.append_assoc, List.take_append_of_le_length (by omega)]
      exact fun hmem => hbody (List.mem_of_mem_take (List.mem_of_mem_take hmem))
    simp only [Body.nextChunk, if_neg (takeLine_cut hten)]
    exact ⟨_, _, rfl⟩
  · refine .inl ⟨hn, ?_⟩
    have hrest : b.rest = body ++ 10 :: more.take (n - s.bytes.length) := by
      rw [h, List.take_append, List.take_of_length_le hn, heq, List.append_assoc]
      rfl
    rw [Body.nextChunk, hrest, takeLine_whole hbody (by omega), ← heq]
    have hlast : s.bytes.getLast? = some 10 := by simp [heq]
    simp only [hlast, s.sizeOf_bytes hm, if_pos]

theorem ahead_of_ne (hd : d ≠ []) : ahead r d = d ++ ([13, 10] ++ r.bytes) :=
  if_neg hd

theorem piecesAhead_of_ne (hd : d ≠ []) : piecesAhead r d = ⟨[], d⟩ :: r.pieces :=
  if_neg hd

/-- A read gives a part of what is left of a chunk. -/
theorem outcome_partway {j : ℕ} (hpos : 0 < j) (hj : j < d.length) (hn : j ≤ n)
    (hle : n ≤ (ahead r d).length) (hshort : r.Short) :
    Outcome r d n (.ok (d.take j),
      ⟨(d.drop j ++ ([13, 10] ++ r.bytes)).take (n - j), .chunked, d.length - j, false⟩) := by
  have hd : d ≠ [] := List.length_pos_iff.mp (by omega)
  have hmore : d.drop j ≠ [] := by
    rw [Ne, List.drop_eq_nil_iff]
    omega
  have hahead := ahead_of_ne (r := r) hd
  have hlater := ahead_of_ne (r := r) hmore
  have hpieces := piecesAhead_of_ne (r := r) hd
  have hpieces' := piecesAhead_of_ne (r := r) hmore
  have hlength : (ahead r d).length = j + (ahead r (d.drop j)).length := by
    rw [hahead, hlater]
    simp only [List.length_append, List.length_drop]
    omega
  have hbytes : (Piece.mk [] d).bytes.length = j + (Piece.mk [] (d.drop j)).bytes.length := by
    simp only [Piece.bytes_length, List.length_nil, List.length_drop]
    omega
  have hstands : Stands r (d.drop j) (n - j)
      ⟨(d.drop j ++ ([13, 10] ++ r.bytes)).take (n - j), .chunked, d.length - j, false⟩ :=
    ⟨rfl, rfl, (List.length_drop ..).symm, by rw [hlater], by omega, hshort⟩
  refine .gave ?_ hstands ?_ ?_ ?_
  · exact List.ne_nil_of_length_pos (by rw [List.length_take]; omega)
  · rw [hpieces, hpieces', contained, contained, hbytes, ← Nat.sub_sub]
    simp only [List.length_nil, Nat.sub_zero]
    rw [take_split hn, List.append_assoc]
  · rw [hpieces, hpieces', CutAtLineEnd, CutAtLineEnd, hbytes, ← Nat.sub_sub]
    rintro (hcut | ⟨hwhole, hcut⟩)
    · left
      omega
    · exact .inr ⟨by omega, hcut⟩
  · omega

/-- A read gives the last of a chunk where its line end is there, too. -/
theorem outcome_last (hd : d ≠ []) (hle : d.length ≤ n) (hn : n ≤ (ahead r d).length)
    (hshort : r.Short) (hrest : b.rest = ([13, 10] ++ r.bytes).take (n - d.length))
    (hframing : b.framing = .chunked) (hdone : b.done = false) (hleft : b.left = 0) :
    Outcome r d n (match b.lineEnd with
      | (.ok _, b) => (.ok d, b)
      | (.error e, b) => (.error e, b)) := by
  have hpiece : (Piece.mk [] d).bytes.length = d.length + 2 := by simp [Piece.bytes_length]
  have hlength : (ahead r d).length = d.length + 2 + r.bytes.length := by
    simp only [ahead_of_ne hd, List.length_append, List.length_cons, List.length_nil]
    omega
  have hpieces := piecesAhead_of_ne (r := r) hd
  rcases lineEnd_cases hrest with ⟨htwo, heq⟩ | ⟨htwo, e, b', heq⟩
  · have hmore : n - d.length - 2 ≤ r.bytes.length := by omega
    have hstands : Stands r [] (n - d.length - 2)
        { b with rest := r.bytes.take (n - d.length - 2) } :=
      ⟨hframing, hdone, hleft, rfl, hmore, hshort⟩
    rw [heq]
    refine .gave hd hstands ?_ ?_ ?_
    · rw [hpieces, contained, hpiece, List.length_nil, Nat.sub_zero, List.take_of_length_le hle,
        Nat.sub_sub]
      rfl
    · rw [hpieces, CutAtLineEnd, hpiece, ← Nat.sub_sub]
      exact fun hcut => .inr ⟨by omega, hcut⟩
    · change _ = n + r.bytes.length
      omega
  · rw [heq]
    refine .failed (by omega) (.inr ?_)
    rw [hpieces, CutAtLineEnd, hpiece]
    left
    omega

/-- In a chunk, what is there of it can be read. -/
theorem Stands.readLeft (h : Stands r d n b) (hd : d ≠ []) (arrived : ℕ) {buf : ℕ}
    (hbuf : buf ≠ 0) : Outcome r d n (b.readLeft arrived buf) := by
  obtain ⟨k, hk, hpos, hkle⟩ := room_cases arrived hbuf hd
  have hrest := h.rest
  rw [ahead_of_ne hd] at hrest
  have hbytes : b.rest.take k = d.take (min k n) := by
    rw [hrest, List.take_take, List.take_append_of_le_length (by omega)]
  have hlater : b.rest.drop k =
      (d.drop (min k n) ++ ([13, 10] ++ r.bytes)).take (n - min k n) := by
    rw [hrest, drop_take_min, List.drop_append_of_le_length (by omega)]
  simp only [Body.readLeft, Body.innerRead, h.left, hk, hbytes, hlater, h.framing,
    List.length_take]
  rcases Nat.eq_zero_or_pos n with rfl | hn
  · rw [if_pos (by simp)]
    refine .failed ?_ (.inl (contained_zero _))
    rw [ahead_of_ne hd, List.length_append]
    omega
  rw [if_neg (take_min_ne hd hpos hn)]
  rcases Nat.lt_or_ge (min k n) d.length with hpart | hwhole
  · rw [if_neg (by omega), Nat.min_eq_left hpart.le, h.done]
    exact outcome_partway (by omega) hpart (Nat.min_le_right k n) h.length_le h.short
  · have hlast : min k n = d.length := by omega
    rw [if_pos (by omega), hlast, List.take_length, List.drop_length, List.nil_append]
    exact outcome_last hd (by omega) h.length_le h.short rfl rfl h.done (by simp)

/-- A size line read, the chunk it is of is before the reader. -/
theorem Outcome.line {c : Chunk} {cs : List Chunk} {last : SizeLine 0}
    {x : Except ReadError Bytes × Body} (hn : c.size.bytes.length ≤ n)
    (h : Outcome ⟨cs, last⟩ c.data (n - c.size.bytes.length) x) :
    Outcome ⟨c :: cs, last⟩ [] n x := by
  have hahead : (ahead ⟨c :: cs, last⟩ []).length =
      c.size.bytes.length + (ahead ⟨cs, last⟩ c.data).length := by
    rw [ahead_of_ne c.data_ne]
    simp [ahead, Chunked.bytes, Chunked.pieces, Piece.bytes, Chunk.piece]
  have hpiece : c.piece.bytes.length =
      c.size.bytes.length + (Piece.mk [] c.data).bytes.length := by
    simp only [Piece.bytes_length, Chunk.piece, List.length_nil]
    omega
  have hcontained : contained (piecesAhead ⟨c :: cs, last⟩ []) n =
      contained (piecesAhead ⟨cs, last⟩ c.data) (n - c.size.bytes.length) := by
    rw [piecesAhead_of_ne c.data_ne]
    change contained (c.piece :: cs.map Chunk.piece) n = contained (_ :: cs.map Chunk.piece) _
    rw [contained, contained, hpiece, ← Nat.sub_sub]
    rfl
  have hcut : CutAtLineEnd (piecesAhead ⟨cs, last⟩ c.data) (n - c.size.bytes.length) →
      CutAtLineEnd (piecesAhead ⟨c :: cs, last⟩ []) n := by
    rw [piecesAhead_of_ne c.data_ne]
    change CutAtLineEnd (_ :: cs.map Chunk.piece) _ → CutAtLineEnd (c.piece :: cs.map Chunk.piece) n
    rw [CutAtLineEnd, CutAtLineEnd, hpiece, ← Nat.sub_sub]
    rintro (hcut | ⟨hle, hcut⟩)
    · left
      omega
    · exact .inr ⟨by omega, hcut⟩
  cases h with
  | eof hlength h => exact .eof (by omega) (hcontained.trans h)
  | failed hlength h =>
    refine .failed (by omega) ?_
    rcases h with h | h
    · exact .inl (hcontained.trans h)
    · exact .inr (hcut h)
  | gave hne hstands h hcut' hlength =>
    exact .gave hne hstands (hcontained.trans h) (fun h => hcut (hcut' h)) (by omega)

/-- What a read comes to where the reader stands. -/
theorem Stands.read (h : Stands r d n b) (arrived : ℕ) {buf : ℕ} (hbuf : buf ≠ 0) :
    Outcome r d n (b.read arrived buf) := by
  rw [Body.read, if_neg (by simp [h.done, hbuf])]
  simp only [h.framing]
  rcases eq_or_ne d [] with rfl | hd
  · have hleft : b.left = 0 := h.left
    rw [if_pos hleft]
    obtain ⟨_ | ⟨c, cs⟩, last⟩ := r
    · -- the last size line, and the line end after it
      have hrest : b.rest = (last.bytes ++ ([13, 10] ++ [])).take n := h.rest
      have hlength : (ahead ⟨[], last⟩ []).length = last.bytes.length + 2 := by
        simp [ahead, Chunked.bytes, Chunked.pieces]
      have hle := h.length_le
      rcases nextChunk_cases last hrest h.short.2 (by decide) with
        ⟨hn, heq⟩ | ⟨hn, e, b', heq⟩
      · simp only [heq]
        rcases lineEnd_cases (b := ⟨_, b.framing, b.left, b.done⟩) rfl with
          ⟨htwo, heq⟩ | ⟨htwo, e, b', heq⟩
        · rw [heq]
          exact .eof (by omega) rfl
        · rw [heq]
          exact .failed (by omega) (.inl rfl)
      · simp only [heq]
        exact .failed (by omega) (.inl rfl)
    · have hrest : b.rest =
          (c.size.bytes ++ (c.data ++ ([13, 10] ++ (Chunked.mk cs last).bytes))).take n := by
        rw [h.rest]
        simp [ahead, Chunked.bytes, Chunked.pieces, Piece.bytes, Chunk.piece]
      have hlength : (ahead ⟨c :: cs, last⟩ []).length =
          (c.size.bytes ++ (c.data ++ ([13, 10] ++ (Chunked.mk cs last).bytes))).length := by
        simp [ahead, Chunked.bytes, Chunked.pieces, Piece.bytes, Chunk.piece]
      have hle := h.length_le
      have hshort : (Chunked.mk cs last).Short :=
        ⟨fun c' hc' => h.short.1 c' (List.mem_cons_of_mem c hc'), h.short.2⟩
      rcases nextChunk_cases c.size hrest (h.short.1 c List.mem_cons_self) c.data_length with
        ⟨hn, heq⟩ | ⟨hn, e, b', heq⟩
      · rcases hsize : c.data.length with _ | size
        · exact absurd (List.length_eq_zero_iff.mp hsize) c.data_ne
        · simp only [heq, hsize]
          rw [← hsize]
          have hahead := ahead_of_ne (r := ⟨cs, last⟩) c.data_ne
          rw [← hahead] at hlength ⊢
          have hstands : Stands ⟨cs, last⟩ c.data (n - c.size.bytes.length)
              ⟨(ahead ⟨cs, last⟩ c.data).take (n - c.size.bytes.length), b.framing,
                c.data.length, b.done⟩ := by
            refine ⟨h.framing, h.done, rfl, rfl, ?_, hshort⟩
            rw [hlength, List.length_append] at hle
            omega
          exact Outcome.line hn (hstands.readLeft c.data_ne arrived hbuf)
      · simp only [heq]
        refine .failed ?_ (.inl ?_)
        · rw [hlength, List.length_append]
          omega
        · have hline : c.size.bytes.length + 2 ≤ c.piece.bytes.length := by
            rw [Piece.bytes_length]
            change _ ≤ c.size.bytes.length + c.data.length + 2
            omega
          change c.data.take (n - c.size.bytes.length) ++
            contained (cs.map Chunk.piece) (n - c.piece.bytes.length) = []
          rw [Nat.sub_eq_zero_of_le hn.le, Nat.sub_eq_zero_of_le (by omega), contained_zero]
          rfl
  · rw [if_neg (by simpa [h.left] using hd)]
    exact h.readLeft hd arrived hbuf

/-- What reads come to where the reader stands. -/
theorem Stands.run (h : Stands r d n b) (reads : List (ℕ × ℕ)) :
    match run b reads with
    | (got, none) => got <+: contained (piecesAhead r d) n ∧ roomy reads ≤ got.length
    | (got, some .eof) => n = (ahead r d).length ∧ got = contained (piecesAhead r d) n
    | (got, some (.failed _)) => n < (ahead r d).length ∧ got <+: contained (piecesAhead r d) n ∧
        (¬CutAtLineEnd (piecesAhead r d) n → got = contained (piecesAhead r d) n) := by
  induction reads generalizing r d n b with
  | nil => exact ⟨List.nil_prefix, Nat.le_refl _⟩
  | cons read reads ih =>
    obtain ⟨arrived, buf⟩ := read
    rcases eq_or_ne buf 0 with rfl | hbuf
    · -- without room nothing is read
      have hread : b.read arrived 0 = (.ok [], b) := if_pos (.inr rfl)
      have hroomy : roomy ((arrived, 0) :: reads) = roomy reads := by simp [roomy]
      have hrun : Bodies.run b ((arrived, 0) :: reads) = Bodies.run b reads := by
        simp [Bodies.run, hread]
      rw [hrun, hroomy]
      exact ih h
    · have hroomy : roomy ((arrived, buf) :: reads) = roomy reads + 1 := by simp [roomy, hbuf]
      have houtcome := h.read arrived hbuf
      rw [Bodies.run, hroomy]
      generalize b.read arrived buf = result at houtcome
      cases houtcome with
      | eof hn hnil =>
        simp only [hbuf, ne_eq, not_false_eq_true, and_self, if_true]
        exact ⟨hn, hnil.symm⟩
      | failed hn hnil =>
        refine ⟨hn, List.nil_prefix, fun hcut => ?_⟩
        exact (hnil.resolve_right hcut).symm
      | gave hne hstands hcontained hcut hlength =>
        have hlater := ih hstands
        have hpos := List.length_pos_iff.mpr hne
        simp only [hne, false_and, if_false]
        generalize Bodies.run _ reads = later at hlater ⊢
        obtain ⟨got, _ | _ | e⟩ := later
        · refine ⟨?_, ?_⟩
          · rw [hcontained]
            exact (List.prefix_append_right_inj _).mpr hlater.1
          · have := hlater.2
            simp only [List.length_append]
            omega
        · have := hlater.1
          exact ⟨by omega, by rw [hcontained, hlater.2]⟩
        · have := hlater.1
          refine ⟨by omega, ?_, fun h => ?_⟩
          · rw [hcontained]
            exact (List.prefix_append_right_inj _).mpr hlater.2.1
          · rw [hcontained, hlater.2.2 fun h' => h (hcut h')]

end Standing

/-! ### Framing undone -/

/-- What reads come to of a body with a length, of which so many bytes are to come. -/
theorem length_run {d : Bytes} {n : ℕ} (hn : n ≤ d.length) (total : ℕ) (reads : List (ℕ × ℕ)) :
    match run ⟨d.take n, .length total, d.length, false⟩ reads with
    | (got, none) => got <+: d.take n ∧ roomy reads ≤ got.length
    | (got, some .eof) => n = d.length ∧ got = d
    | (got, some (.failed _)) => n < d.length ∧ got = d.take n := by
  induction reads generalizing d n with
  | nil => exact ⟨List.nil_prefix, Nat.le_refl _⟩
  | cons read reads ih =>
    obtain ⟨arrived, buf⟩ := read
    rcases eq_or_ne buf 0 with rfl | hbuf
    · -- without room nothing is read
      have hroomy : roomy ((arrived, 0) :: reads) = roomy reads := by simp [roomy]
      have hread : ∀ b : Body, b.read arrived 0 = (.ok [], b) := fun b => if_pos (.inr rfl)
      have hrun : ∀ b, run b ((arrived, 0) :: reads) = run b reads := by
        intro b
        simp [run, hread]
      rw [hrun, hroomy]
      exact ih hn
    · have hroomy : roomy ((arrived, buf) :: reads) = roomy reads + 1 := by simp [roomy, hbuf]
      rw [run, Body.read, if_neg (by simp [hbuf]), hroomy]
      simp only
      rcases eq_or_ne d [] with rfl | hd
      · simpa [hbuf] using hn
      have hdpos := List.length_pos_iff.mpr hd
      obtain ⟨k, hk, hkpos, hkle⟩ := room_cases arrived hbuf hd
      simp only [if_neg hdpos.ne', Body.readLeft, Body.innerRead, hk, List.take_take,
        List.length_take]
      rcases Nat.eq_zero_or_pos n with rfl | hpos
      · rw [if_pos (by simp)]
        exact ⟨hdpos, rfl⟩
      have hgiven := take_min_ne hd hkpos hpos
      have hlength : (d.take (min k n)).length = min k n := by
        rw [List.length_take]
        omega
      have hleft : d.length - min (min k n) d.length = (d.drop (min k n)).length := by
        rw [List.length_drop]
        omega
      have hrest := drop_take_min d k n
      have hsplit := take_split (d := d) (Nat.min_le_right k n)
      have hlater := ih (d := d.drop (min k n)) (n := n - min k n) (by
        rw [List.length_drop]
        omega)
      simp only [hgiven, false_and, if_false, hleft, hrest]
      generalize run _ reads = later at hlater ⊢
      obtain ⟨got, _ | _ | e⟩ := later
      · refine ⟨?_, ?_⟩
        · rw [hsplit]
          exact (List.prefix_append_right_inj _).mpr hlater.1
        · have hroom := hlater.2
          simp only [List.length_append, hlength]
          omega
      · obtain ⟨hall, rfl⟩ := hlater
        rw [List.length_drop] at hall
        exact ⟨by omega, List.take_append_drop _ d⟩
      · obtain ⟨hall, rfl⟩ := hlater
        rw [List.length_drop] at hall
        exact ⟨by omega, hsplit.symm⟩

theorem Chunked.stands {r : Chunked} (h : r.Short) {n : ℕ} (hn : n ≤ r.bytes.length) :
    Stands r [] n (Body.new (r.bytes.take n) .chunked) :=
  ⟨rfl, rfl, rfl, rfl, hn, h⟩

theorem Chunked.gives {r : Chunked} (h : r.Short) :
    Gives (Body.new r.bytes .chunked) r.payload := by
  intro reads
  have hrun := (Chunked.stands h (Nat.le_refl _)).run reads
  rw [List.take_length] at hrun
  have hpayload : contained (piecesAhead r []) r.bytes.length = r.payload := r.payload_eq
  have hall : (ahead r []).length = r.bytes.length := rfl
  rw [hpayload, hall] at hrun
  generalize run _ reads = result at hrun ⊢
  obtain ⟨got, _ | _ | e⟩ := result
  · exact hrun
  · exact hrun.2
  · exact absurd hrun.1 (Nat.lt_irrefl _)

theorem Chunked.breaks {r : Chunked} (h : r.Short) {n : ℕ} (hn : n < r.bytes.length) :
    Breaks (Body.new (r.bytes.take n) .chunked) (contained r.pieces n)
      (¬CutAtLineEnd r.pieces n) := by
  intro reads
  have hrun := (Chunked.stands h hn.le).run reads
  generalize run _ reads = result at hrun ⊢
  obtain ⟨got, _ | _ | e⟩ := result
  · exact hrun
  · exact absurd hrun.1 hn.ne
  · exact hrun.2

theorem gives_length (payload : Bytes) :
    Gives (Body.new payload (.length payload.length)) payload := by
  intro reads
  have hrun := length_run (Nat.le_refl payload.length) payload.length reads
  rw [List.take_length] at hrun
  have hnew : Body.new payload (.length payload.length) =
      ⟨payload, .length payload.length, payload.length, false⟩ := rfl
  rw [hnew]
  generalize run _ reads = result at hrun ⊢
  obtain ⟨got, _ | _ | e⟩ := result
  · exact hrun
  · exact hrun.2
  · exact absurd hrun.1 (Nat.lt_irrefl _)

theorem breaks_length {payload : Bytes} {n : ℕ} (hn : n < payload.length) :
    Breaks (Body.new (payload.take n) (.length payload.length)) (payload.take n) True := by
  intro reads
  have hrun := length_run hn.le payload.length reads
  have hnew : Body.new (payload.take n) (.length payload.length) =
      ⟨payload.take n, .length payload.length, payload.length, false⟩ := rfl
  rw [hnew]
  generalize run _ reads = result at hrun ⊢
  obtain ⟨got, _ | _ | e⟩ := result
  · exact hrun
  · exact absurd hrun.1 hn.ne
  · obtain ⟨-, rfl⟩ := hrun
    exact ⟨List.prefix_rfl, fun _ => rfl⟩

/-- A whole response, with size lines no longer than are read, gives its payload and then its end;
one cut short gives what is there of the payload and then an error. -/
theorem framing_undone (payload : Bytes) :
    Gives (Body.new payload (.length payload.length)) payload ∧
      (∀ n < payload.length,
        Breaks (Body.new (payload.take n) (.length payload.length)) (payload.take n) True) ∧
      ∀ r : Chunked, r.Short → r.payload = payload →
        Gives (Body.new r.bytes .chunked) payload ∧
          ∀ n < r.bytes.length, Breaks (Body.new (r.bytes.take n) .chunked)
            (contained r.pieces n) (¬CutAtLineEnd r.pieces n) := by
  refine ⟨gives_length payload, fun n hn => breaks_length hn, ?_⟩
  rintro r h rfl
  exact ⟨r.gives h, fun n hn => r.breaks h hn⟩

/-- A response in two chunks, each with an extension. -/
def greeting (extension : List Char) (h : '\n' ∉ extension) : Chunked where
  chunks := List.replicate 2 {
    data := [72, 105]
    size := {
      digits := ['2']
      blanks := []
      extension := some extension
      digits_ne := by simp
      digits_hex := List.forall_mem_singleton.mpr rfl
      digits_value := rfl
      blanks_blank := by simp
      extension_line := by
        intro text htext
        cases htext
        exact h }
    data_ne := by simp
    data_length := by decide }
  last := {
    digits := ['0']
    blanks := []
    extension := none
    digits_ne := by simp
    digits_hex := List.forall_mem_singleton.mpr rfl
    digits_value := rfl
    blanks_blank := by simp
    extension_line := by simp }

theorem greeting_undone : (greeting ['x'] (by decide)).Short ∧
    Gives (Body.new (greeting ['x'] (by decide)).bytes .chunked) [72, 105, 72, 105] := by
  have hshort : (greeting ['x'] (by decide)).Short := ⟨by decide, by decide⟩
  exact ⟨hshort, ((framing_undone [72, 105, 72, 105]).2.2 _ hshort rfl).1⟩

/-- A size line longer than is read ends the reading in an error. -/
theorem run_long_line {b : Body} (hframing : b.framing = .chunked) (hleft : b.left = 0)
    (hdone : b.done = false) (h : 10 ∉ b.rest.take 1024) :
    run b [(1, 1)] = ([], some (.failed .endedInSize)) := by
  have hsize : b.nextChunk.1 = .error .endedInSize := by
    rw [Body.nextChunk]
    exact congrArg Prod.fst (if_neg (takeLine_cut h))
  obtain ⟨rest, hnext⟩ : ∃ rest, b.nextChunk = (.error .endedInSize, rest) :=
    ⟨_, Prod.ext hsize rfl⟩
  simp [run, Body.read, hframing, hleft, hdone, hnext]

theorem not_gives_of_failed {b : Body} {payload got : Bytes} {e : ReadError}
    {reads : List (ℕ × ℕ)} (hrun : run b reads = (got, some (.failed e))) : ¬Gives b payload := by
  intro h
  have hgives := h reads
  rw [hrun] at hgives
  exact hgives

theorem letters_line : '\n' ∉ List.replicate 1100 'a' := by
  intro h
  exact absurd (List.eq_of_mem_replicate h) (by decide)

theorem long_line_unread :
    ¬Gives (Body.new (greeting (List.replicate 1100 'a') letters_line).bytes .chunked)
      (greeting (List.replicate 1100 'a') letters_line).payload := by
  have hwindow : 10 ∉ (greeting (List.replicate 1100 'a') letters_line).bytes.take 1024 := by
    decide +kernel
  exact not_gives_of_failed (run_long_line rfl rfl rfl hwindow)

end LocalSpace.Bodies
