import LocalSpace.Library.Utf8

/-!
# Bytes that are not all UTF-8

The characters of any bytes, and the sequences in them that are of none (`items`), each as long as
it may be the start of a character. Counted, a character beyond ASCII has a byte that leads and one
at least that goes on, and a sequence that is of none has at most one byte that leads.
-/

namespace Library

namespace Utf8

/-- The character that bytes begin with. -/
@[grind =]
def first (bytes : List UInt8) : Option Char :=
  bytes.toByteArray.utf8DecodeChar? 0

/-- Whether a byte may come second, in a character of three bytes or four. -/
def mayFollow (lead second : UInt8) : Bool :=
  if lead = 0xE0 then 0xA0 ≤ second ∧ second ≤ 0xBF
  else if lead = 0xED then 0x80 ≤ second ∧ second ≤ 0x9F
  else if 0xE1 ≤ lead ∧ lead ≤ 0xEF then Continues second
  else if lead = 0xF0 then 0x90 ≤ second ∧ second ≤ 0xBF
  else if 0xF1 ≤ lead ∧ lead ≤ 0xF3 then Continues second
  else if lead = 0xF4 then 0x80 ≤ second ∧ second ≤ 0x8F
  else false

/-- How many bytes after the first are of the same sequence, where this begins no character. -/
def following (lead : UInt8) : List UInt8 → ℕ
  | [] => 0
  | second :: more =>
    if !mayFollow lead second then 0
    else if lead < 0xF0 then 1
    else
      match more with
      | [] => 1
      | third :: _ => if Continues third then 2 else 1

/-- The characters, and `none` for each sequence that is of none. -/
@[grind =]
def items : List UInt8 → List (Option Char)
  | [] => []
  | b :: rest =>
    match first (b :: rest) with
    | some c => some c :: items (rest.drop (c.utf8Size - 1))
    | none => none :: items (rest.drop (following b rest))
termination_by bytes => bytes.length
decreasing_by
  · simp only [List.length_drop, List.length_cons]
    omega
  · simp only [List.length_drop, List.length_cons]
    omega

section Items

variable {bytes : List UInt8} {c : Char}

theorem first_encodeChar (c : Char) (rest : List UInt8) :
    first (String.utf8EncodeChar c ++ rest) = some c := by
  rw [first, List.toByteArray_append]
  exact ByteArray.utf8DecodeChar?_utf8EncodeChar_append

theorem encodeChar_of_first (h : first bytes = some c) :
    ∃ rest, bytes = String.utf8EncodeChar c ++ rest := by
  have hbytes := String.toByteArray_utf8EncodeChar_of_utf8DecodeChar?_eq_some h
  refine ⟨bytes.drop c.utf8Size, ?_⟩
  have htake : String.utf8EncodeChar c = bytes.take c.utf8Size := by
    rw [← List.toByteArray_inj, hbytes]
    ext1
    simp
  rw [htake, List.take_append_drop]

/-- A character's items: itself, and what follows it. -/
theorem items_encodeChar (c : Char) (rest : List UInt8) :
    items (String.utf8EncodeChar c ++ rest) = some c :: items rest := by
  have hfirst := first_encodeChar c rest
  have hlength := String.length_utf8EncodeChar c
  rcases hbytes : String.utf8EncodeChar c with _ | ⟨b, more⟩
  · rw [hbytes, List.length_nil] at hlength
    exact absurd hlength.symm c.utf8Size_pos.ne'
  · rw [hbytes] at hfirst hlength
    rw [List.cons_append] at hfirst ⊢
    rw [items, hfirst]
    simp only
    rw [List.drop_left' (by rw [← hlength]; rfl)]

theorem items_encode (text : List Char) : items (encode text) = text.map some := by
  induction text with
  | nil => simp [encode_nil, items]
  | cons c text ih => rw [encode_cons, items_encodeChar, ih, List.map_cons]

/-- A byte that leads, or that no character has. -/
@[grind =]
def high (bytes : List UInt8) : ℕ :=
  bytes.countP fun b => 192 ≤ b.toNat

/-- The bytes that go on a character. -/
@[grind =]
def low (bytes : List UInt8) : ℕ :=
  bytes.countP fun b => Continues b

/-- The characters beyond ASCII. -/
def good (bytes : List UInt8) : ℕ :=
  (items bytes).countP fun item => item.any fun c => 128 ≤ c.toNat

/-- The sequences that are of no character. -/
def bad (bytes : List UInt8) : ℕ :=
  (items bytes).countP fun item => item.isNone

theorem continues_between {first last b : UInt8} (h : first ≤ b ∧ b ≤ last)
    (hfirst : 128 ≤ first.toNat) (hlast : last.toNat < 192) : Continues b := by
  have hge := UInt8.le_iff_toNat_le.mp h.1
  have hle := UInt8.le_iff_toNat_le.mp h.2
  exact ⟨by omega, by omega⟩

theorem mayFollow_continues {lead second : UInt8} (h : mayFollow lead second = true) :
    Continues second := by
  rw [mayFollow] at h
  split_ifs at h <;> simp only [decide_eq_true_eq] at h
  · exact continues_between h (by decide) (by decide)
  · exact continues_between h (by decide) (by decide)
  · exact h
  · exact continues_between h (by decide) (by decide)
  · exact h
  · exact continues_between h (by decide) (by decide)

/-- What is of one invalid sequence after its first byte goes on. -/
theorem following_continues (lead : UInt8) (rest : List UInt8) :
    ∀ b ∈ rest.take (following lead rest), Continues b := by
  rcases rest with _ | ⟨second, more⟩
  · simp
  rw [following.eq_def]
  simp only
  split_ifs with hnot hshort
  · simp
  · rw [Bool.not_eq_true', Bool.not_eq_false] at hnot
    simpa using mayFollow_continues hnot
  · rw [Bool.not_eq_true', Bool.not_eq_false] at hnot
    have hsecond := mayFollow_continues hnot
    rcases more with _ | ⟨third, more⟩
    · simpa using hsecond
    · simp only
      split_ifs with hthird
      · simp [hsecond, hthird]
      · simpa using hsecond

/-- The first item of bytes, and what follows it. -/
theorem items_cases (b : UInt8) (rest : List UInt8) :
    (∃ c more, b :: rest = String.utf8EncodeChar c ++ more ∧
        items (b :: rest) = some c :: items more) ∨
      ∃ skipped more, rest = skipped ++ more ∧ (∀ x ∈ skipped, Continues x) ∧
        items (b :: rest) = none :: items more := by
  rcases hfirst : first (b :: rest) with _ | c
  · right
    refine ⟨_, _, (List.take_append_drop (following b rest) rest).symm,
      following_continues b rest, ?_⟩
    rw [items, hfirst]
  · left
    obtain ⟨more, hmore⟩ := encodeChar_of_first hfirst
    exact ⟨c, more, hmore, by rw [hmore, items_encodeChar]⟩

theorem continues_not_lead {b : UInt8} (h : Continues b) : ¬192 ≤ b.toNat := by
  have := h.2
  omega

/-- A character beyond ASCII has a byte that leads and one or more that go on. -/
theorem counts_encodeChar (c : Char) :
    high (String.utf8EncodeChar c) = (if 128 ≤ c.toNat then 1 else 0) ∧
      (if 128 ≤ c.toNat then 1 else 0) ≤ low (String.utf8EncodeChar c) := by
  rcases encodeChar_cases c with ⟨b, heq, hb, hvalue⟩ | ⟨b, rest, heq, hne, hb, hrest, hc⟩
  · rw [heq, if_neg (by omega), high, List.countP_singleton]
    exact ⟨if_neg (by simpa using by omega), Nat.zero_le _⟩
  · have hnone : rest.countP (fun x => 192 ≤ x.toNat) = 0 := by
      rw [List.countP_eq_zero]
      intro x hx
      simpa using continues_not_lead (hrest x hx)
    have hsome : 0 < rest.countP (fun x => Continues x) := by
      obtain ⟨x, hx⟩ := List.exists_mem_of_ne_nil rest hne
      exact List.countP_pos_iff.mpr ⟨x, hx, decide_eq_true (hrest x hx)⟩
    rw [heq, if_pos hc, high, low, List.countP_cons, List.countP_cons, hnone]
    refine ⟨by simp [hb], by omega⟩

/-- Of the bytes that lead, each is of a character beyond ASCII or of a sequence that is of none,
and each of these characters has one that goes on. -/
theorem counts (bytes : List UInt8) :
    good bytes ≤ low bytes ∧ high bytes ≤ good bytes + bad bytes := by
  induction hn : bytes.length using Nat.strong_induction_on generalizing bytes with
  | _ n ih =>
    rcases bytes with _ | ⟨b, rest⟩
    · simp [good, high, items]
    rcases items_cases b rest with ⟨c, more, hbytes, hitems⟩ | ⟨skipped, more, rfl, hskip, hitems⟩
    · -- a character
      obtain ⟨hhigh, hlow⟩ := counts_encodeChar c
      have hshorter : more.length < n := by
        rw [← hn, hbytes, List.length_append]
        have := List.length_pos_iff.mpr (encodeChar_ne c)
        omega
      have hmore := ih more.length hshorter more rfl
      have hgood : good (b :: rest) = (if 128 ≤ c.toNat then 1 else 0) + good more := by
        rw [good, hitems, List.countP_cons, ← good, Nat.add_comm]
        simp
      have hbad : bad (b :: rest) = bad more := by
        rw [bad, hitems, List.countP_cons, ← bad]
        simp
      have hhighs : high (b :: rest) = high (String.utf8EncodeChar c) + high more := by
        rw [hbytes, high, List.countP_append]
        rfl
      have hlows : low (b :: rest) = low (String.utf8EncodeChar c) + low more := by
        rw [hbytes, low, List.countP_append]
        rfl
      omega
    · -- a sequence that is of none
      have hshorter : more.length < n := by
        rw [← hn, List.length_cons, List.length_append]
        omega
      have hmore := ih more.length hshorter more rfl
      have hgood : good (b :: (skipped ++ more)) = good more := by
        rw [good, hitems, List.countP_cons, ← good]
        simp
      have hbad : bad (b :: (skipped ++ more)) = bad more + 1 := by
        rw [bad, hitems, List.countP_cons, ← bad]
        simp
      have hnone : skipped.countP (fun x => 192 ≤ x.toNat) = 0 := by
        rw [List.countP_eq_zero]
        intro x hx
        simpa using continues_not_lead (hskip x hx)
      have hhighs : high (b :: (skipped ++ more)) ≤ high more + 1 := by
        rw [high, List.countP_cons, List.countP_append, hnone, ← high]
        split_ifs <;> omega
      have hlows : low more ≤ low (b :: (skipped ++ more)) := by
        rw [low, low, List.countP_cons, List.countP_append]
        omega
      omega

/-- In a text, the bytes that lead are no more than those that go on. -/
theorem high_le_low_encode (text : List Char) : high (encode text) ≤ low (encode text) := by
  induction text with
  | nil => exact Nat.le_refl _
  | cons c text ih =>
    obtain ⟨hhigh, hlow⟩ := counts_encodeChar c
    simp only [high, low] at ih hhigh hlow
    rw [encode_cons, high, low, List.countP_append, List.countP_append]
    omega

end Items

end Utf8

end Library
