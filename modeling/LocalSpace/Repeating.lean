import LocalSpace.Library.Utf8
import LocalSpace.Library.ZFunction
import LocalSpace.Proto

/-!
# Repetition

`model.rs`: where an answer that repeats itself is cut (`repeating_from`). The end of its bytes is
matched against itself backwards; what is found is a stretch of characters said three times or more,
the shortest, and the cut leaves one saying of it.
-/

namespace LocalSpace.Repeating

open Library Utf8

@[grind =]
def repeatedChars : ℕ := 60

def fence : List Char := ['`', '`', '`']

/-- The fences of a text, each counted after the one before. -/
def fences : List Char → ℕ
  | '`' :: '`' :: '`' :: rest => fences rest + 1
  | _ :: rest => fences rest
  | [] => 0

/-- `str::rfind` of a fence: what stands before the last one, and after it. -/
def lastFence : List Char → Option (List Char × List Char)
  | [] => none
  | c :: rest =>
    match lastFence rest with
    | some (before, after) => some (c :: before, after)
    | none => if fence.isPrefixOf (c :: rest) then some ([], (c :: rest).drop 3) else none

/-- `str::is_char_boundary`. -/
def isCharBoundary (bytes : Bytes) (i : ℕ) : Bool :=
  match bytes[i]? with
  | some b => ¬Continues b
  | none => i = bytes.length

/-- The first boundary from here. -/
def toBoundary (bytes : Bytes) (cut : ℕ) : ℕ :=
  if cut < bytes.length ∧ ¬isCharBoundary bytes cut then toBoundary bytes (cut + 1) else cut
termination_by bytes.length - cut

/-- The bytes that begin a character. -/
def chars (bytes : Bytes) : ℕ :=
  bytes.countP fun b => b &&& 0xC0 ≠ 0x80

/-- `repeating_from`: the byte to cut at. -/
def repeatingFrom (text : List Char) : Option ℕ :=
  if fences text % 2 = 1 then none
  else
    let (start, rest) := match lastFence text with
      | some (before, after) => ((encode before).length + 3, after)
      | none => (0, text)
    let tail := encode rest
    let n := tail.length
    if n < 3 * repeatedChars then none
    else
      let z := ZFunction.zFunction tail.reverse
      let found := (List.range' repeatedChars (n / 3 + 1 - repeatedChars)).find? fun p =>
        2 * p ≤ z.getD p 0 ∧ repeatedChars ≤ chars (tail.drop (n - p))
      found.map fun p =>
        let again := z.getD p 0 / p
        toBoundary (encode text) (start + n - again * p)

/-! ### What repetition is -/

/-- A text is what follows the last fence of another: there is none from its last two places on. -/
def FollowsFences (text tail : List Char) : Prop :=
  (¬fence <:+: text ∧ tail = text) ∨
    ∃ before, text = before ++ fence ++ tail ∧ ¬fence <:+: fence.tail ++ tail

/-- A text ends with a stretch said so many times in a row. -/
@[grind =]
def Said {α : Type} (m : ℕ) (stretch text : List α) : Prop :=
  (List.replicate m stretch).flatten <:+ text

/-- A stretch long enough, said three times in a row at the end. -/
def Loops (stretch text : List Char) : Prop :=
  repeatedChars ≤ stretch.length ∧ Said 3 stretch text

section Fences

variable {text before after : List Char}

theorem lastFence_none (h : lastFence text = none) : ¬fence <:+: text := by
  induction text with
  | nil => decide
  | cons c rest ih =>
    rw [lastFence] at h
    split at h
    · cases h
    · next hrest =>
      rw [ite_eq_right_iff] at h
      rw [List.infix_cons_iff]
      rintro (hstart | hlater)
      · cases h (List.isPrefixOf_iff_prefix.mpr hstart)
      · exact ih hrest hlater

theorem lastFence_some (h : lastFence text = some (before, after)) :
    text = before ++ fence ++ after ∧ ¬fence <:+: fence.tail ++ after := by
  induction text generalizing before with
  | nil => cases h
  | cons c rest ih =>
    rw [lastFence] at h
    split at h
    · next before' after' hrest =>
      cases h
      obtain ⟨rfl, hnone⟩ := ih hrest
      exact ⟨rfl, hnone⟩
    · next hrest =>
      split_ifs at h with hstart
      obtain ⟨more, hmore⟩ := List.isPrefixOf_iff_prefix.mp hstart
      have hnone := lastFence_none hrest
      rw [← hmore] at h
      cases h
      refine ⟨hmore.symm, ?_⟩
      obtain rfl : rest = fence.tail ++ more := (List.cons.inj hmore).2.symm
      exact hnone

/-- What the code looks at follows the last fence, from where it says. -/
theorem follows_lastFence (text : List Char) :
    ∃ front tail, text = front ++ tail ∧ FollowsFences text tail ∧
      (match lastFence text with
        | some (before, after) => ((encode before).length + 3, after)
        | none => (0, text)) = ((encode front).length, tail) := by
  rcases hlast : lastFence text with _ | ⟨before, after⟩
  · exact ⟨[], text, rfl, .inl ⟨lastFence_none hlast, rfl⟩, rfl⟩
  · obtain ⟨htext, hnone⟩ := lastFence_some hlast
    refine ⟨before ++ fence, after, htext, .inr ⟨before, htext, hnone⟩, ?_⟩
    rw [encode_append, List.length_append]
    rfl

end Fences

/-! ### Sayings of bytes and of characters -/

section Sayings

variable {tail stretch : List Char} {bytes : Bytes} {m p : ℕ}

theorem length_sayings {α : Type} (m : ℕ) (x : List α) :
    (List.replicate m x).flatten.length = m * x.length := by
  rw [List.length_flatten, List.map_replicate, List.sum_replicate_nat]

theorem encode_sayings (m : ℕ) (stretch : List Char) :
    encode (List.replicate m stretch).flatten = (List.replicate m (encode stretch)).flatten := by
  induction m with
  | zero => rfl
  | succ m ih => simp only [List.replicate_succ, List.flatten_cons, encode_append, ih]

theorem said_encode : Said m (encode stretch) (encode tail) ↔ Said m stretch tail := by
  rw [Said, Said, ← encode_sayings]
  constructor
  · rintro ⟨x, hx⟩
    obtain ⟨start, rfl, -⟩ := of_append_encode hx.symm
    exact ⟨start, rfl⟩
  · rintro ⟨start, rfl⟩
    exact ⟨encode start, (encode_append _ _).symm⟩

theorem Said.mono {α : Type} {x y : List α} {k : ℕ} (h : Said m x y) (hk : k ≤ m) :
    Said k x y := by
  obtain ⟨d, rfl⟩ := Nat.exists_eq_add_of_le' hk
  refine List.IsSuffix.trans ?_ h
  rw [List.replicate_add, List.flatten_append]
  exact List.suffix_append _ _

/-- The last `p` bytes are said once more than the table says in sayings backwards. -/
theorem said_iff (hpos : 0 < p) (hp : p < bytes.length) :
    Said (m + 1) (bytes.drop (bytes.length - p)) bytes ↔
      m ≤ (ZFunction.zFunction bytes.reverse).getD p 0 / p := by
  rw [← ZFunction.runs_iff hpos (by rwa [List.length_reverse]), Said, ← List.reverse_prefix,
    List.reverse_flatten, List.map_replicate, List.reverse_replicate, List.reverse_drop,
    Nat.sub_sub_self (Nat.le_of_lt hp)]

theorem chars_encode (stretch : List Char) : chars (encode stretch) = stretch.length := by
  have hbyte : ∀ n < 256, (UInt8.ofNat n &&& 0xC0 ≠ 0x80) = ¬Continues (UInt8.ofNat n) := by
    decide +kernel
  rw [← countP_encode, chars]
  congr 1
  funext b
  have := hbyte b.toNat b.toNat_lt
  rw [UInt8.ofNat_toNat] at this
  simp only [this]

theorem length_le_encode (stretch : List Char) : stretch.length ≤ (encode stretch).length := by
  rw [← countP_encode]
  exact List.countP_le_length

/-- Bytes said three times at the end of a text are a text. -/
theorem exists_stretch (hp : repeatedChars ≤ p) (h3 : 3 * p ≤ (encode tail).length)
    (h : Said 3 ((encode tail).drop ((encode tail).length - p)) (encode tail)) :
    ∃ stretch, Said 3 stretch tail ∧
      encode stretch = (encode tail).drop ((encode tail).length - p) := by
  generalize hx : (encode tail).drop ((encode tail).length - p) = x at h
  have hlength : 4 ≤ x.length := by
    rw [← hx, List.length_drop]
    rw [repeatedChars] at hp
    omega
  obtain ⟨start, hstart⟩ := h
  have htwice : encode tail = start ++ x ++ x ++ x := by
    rw [← hstart]
    simp [List.replicate_succ]
  obtain ⟨before, stretch, -, rfl⟩ := of_twice htwice hlength
  exact ⟨stretch, said_encode.mp ⟨start, hstart⟩, rfl⟩

/-- A stretch that loops, by its bytes. -/
theorem Loops.bytes_eq (h : Loops stretch tail) :
    repeatedChars ≤ (encode stretch).length ∧
      3 * (encode stretch).length ≤ (encode tail).length ∧
      (encode tail).drop ((encode tail).length - (encode stretch).length) = encode stretch := by
  have hsaid := said_encode.mpr h.2
  refine ⟨h.1.trans (length_le_encode stretch), ?_, ?_⟩
  · have := hsaid.length_le
    rwa [length_sayings] at this
  · have hone := hsaid.mono (k := 1) (by omega)
    rw [Said, List.replicate_one, List.flatten_singleton] at hone
    exact (List.suffix_iff_eq_drop.mp hone).symm

theorem loops_iff (hp : repeatedChars ≤ p) (h3 : 3 * p ≤ (encode tail).length) :
    (2 * p ≤ (ZFunction.zFunction (encode tail).reverse).getD p 0 ∧
        repeatedChars ≤ chars ((encode tail).drop ((encode tail).length - p))) ↔
      ∃ stretch, Loops stretch tail ∧ (encode stretch).length = p := by
  have hpos : 0 < p := by
    rw [repeatedChars] at hp
    omega
  rw [← Nat.le_div_iff_mul_le hpos, ← said_iff hpos (by omega)]
  constructor
  · rintro ⟨hsaid, hchars⟩
    obtain ⟨stretch, hstretch, hbytes⟩ := exists_stretch hp h3 hsaid
    rw [← hbytes, chars_encode] at hchars
    refine ⟨stretch, ⟨hchars, hstretch⟩, ?_⟩
    rw [hbytes, List.length_drop]
    omega
  · rintro ⟨stretch, hloops, rfl⟩
    obtain ⟨-, -, hdrop⟩ := hloops.bytes_eq
    rw [hdrop, chars_encode]
    exact ⟨said_encode.mpr hloops.2, hloops.1⟩

/-- The first length found is the shortest stretch's. -/
theorem found_iff : ((List.range' repeatedChars ((encode tail).length / 3 + 1 - repeatedChars)).find?
      fun p => 2 * p ≤ (ZFunction.zFunction (encode tail).reverse).getD p 0 ∧
        repeatedChars ≤ chars ((encode tail).drop ((encode tail).length - p))) = some p ↔
    ∃ stretch, Loops stretch tail ∧ (encode stretch).length = p ∧
      ∀ other, Loops other tail → p ≤ (encode other).length := by
  rw [List.find?_range'_eq_some, List.mem_range'_1, decide_eq_true_eq]
  constructor
  · rintro ⟨hgood, ⟨hp, hlt⟩, hfirst⟩
    obtain ⟨stretch, hloops, hlength⟩ := (loops_iff hp (by omega)).mp hgood
    refine ⟨stretch, hloops, hlength, fun other hother => ?_⟩
    by_contra hless
    obtain ⟨hp', h3', -⟩ := hother.bytes_eq
    have := hfirst _ hp' (by omega)
    rw [Bool.not_eq_true', decide_eq_false_iff_not] at this
    exact this ((loops_iff hp' h3').mpr ⟨other, hother, rfl⟩)
  · rintro ⟨stretch, hloops, rfl, hleast⟩
    obtain ⟨hp, h3, -⟩ := hloops.bytes_eq
    refine ⟨(loops_iff hp h3).mpr ⟨stretch, hloops, rfl⟩, ⟨hp, by omega⟩, fun j hj hlt => ?_⟩
    rw [Bool.not_eq_true', decide_eq_false_iff_not, loops_iff hj (by omega)]
    rintro ⟨other, hother, rfl⟩
    exact absurd (hleast other hother) (by omega)

end Sayings

/-! ### The cut -/

section Cutting

variable {text kept rest : List Char}

theorem toBoundary_encode (h : text = kept ++ rest) :
    toBoundary (encode text) (encode kept).length = (encode kept).length := by
  have hboundary : isCharBoundary (encode text) (encode kept).length = true := by
    rw [h, encode_append, isCharBoundary, List.getElem?_append_right (Nat.le_refl _),
      Nat.sub_self, ← List.head?_eq_getElem?]
    have hlead := encode_lead rest
    rcases hhead : (encode rest).head? with _ | b
    · have hnil := List.head?_eq_none_iff.mp hhead
      simp [hnil]
    · simpa using hlead b hhead
  rw [toBoundary, if_neg (by simp [hboundary])]

/-- What is cut away, where the last bytes are known to be a stretch said so often. -/
theorem Said.cut (front : List Char) {tail stretch : List Char} {m : ℕ}
    (h : Said (m + 1) stretch tail) :
    ∃ kept, front ++ tail = kept ++ (List.replicate m stretch).flatten ∧ stretch <:+ kept ∧
      (encode front).length + (encode tail).length - m * (encode stretch).length =
        (encode kept).length := by
  obtain ⟨start, rfl⟩ := h
  refine ⟨front ++ start ++ stretch, ?_, List.suffix_append _ _, ?_⟩
  · simp [List.replicate_succ]
  · have hlength := length_sayings m (encode stretch)
    rw [← encode_sayings] at hlength
    simp only [List.replicate_succ, List.flatten_cons, encode_append, List.length_append, hlength]
    omega

end Cutting

/-- Repetition is found exactly, and the cut leaves one saying of what is repeated. -/
theorem repetition_found (text : List Char) :
    ∃ tail, FollowsFences text tail ∧
      ((repeatingFrom text).isSome ↔
        fences text % 2 = 0 ∧ ∃ stretch, Loops stretch tail) ∧
      ∀ cut, repeatingFrom text = some cut →
        ∃ stretch m kept, Loops stretch tail ∧
          (∀ other, Loops other tail → (encode stretch).length ≤ (encode other).length) ∧
          Said m stretch tail ∧ ¬Said (m + 1) stretch tail ∧
          text = kept ++ (List.replicate (m - 1) stretch).flatten ∧ stretch <:+ kept ∧
          cut = (encode kept).length := by
  obtain ⟨front, tail, htext, hfollows, hstart⟩ := follows_lastFence text
  refine ⟨tail, hfollows, ?_⟩
  rw [repeatingFrom, hstart]
  rcases Nat.mod_two_eq_zero_or_one (fences text) with heven | hodd
  swap
  · -- inside a code block
    simp [hodd]
  rw [if_neg (by omega)]
  have hshort : (encode tail).length < 3 * repeatedChars → ∀ stretch, ¬Loops stretch tail := by
    intro hlt stretch hloops
    obtain ⟨hle, h3, -⟩ := hloops.bytes_eq
    omega
  rcases Nat.lt_or_ge (encode tail).length (3 * repeatedChars) with hlt | hge
  · -- too short for three sayings
    simp [hlt, hshort hlt]
  simp only [if_neg (Nat.not_lt.mpr hge)]
  refine ⟨?_, fun cut hcut => ?_⟩
  · rw [Option.isSome_map, List.find?_isSome]
    constructor
    · rintro ⟨p, hmem, hgood⟩
      rw [List.mem_range'_1] at hmem
      obtain ⟨stretch, hloops, -⟩ := (loops_iff hmem.1 (by omega)).mp (of_decide_eq_true hgood)
      exact ⟨heven, stretch, hloops⟩
    · rintro ⟨-, stretch, hloops⟩
      obtain ⟨hp, h3, -⟩ := hloops.bytes_eq
      refine ⟨(encode stretch).length, ?_, ?_⟩
      · rw [List.mem_range'_1]
        omega
      · exact decide_eq_true ((loops_iff hp h3).mpr ⟨stretch, hloops, rfl⟩)
  · obtain ⟨p, hfound, hcut⟩ := Option.map_eq_some_iff.mp hcut
    obtain ⟨stretch, hloops, rfl, hleast⟩ := found_iff.mp hfound
    obtain ⟨hp, h3, hdrop⟩ := hloops.bytes_eq
    rw [repeatedChars] at hp
    -- how often it is said, whatever the table holds
    have hsaid : ∀ m, Said (m + 1) ((encode tail).drop _) (encode tail) ↔ m ≤ _ := fun m =>
      said_iff (p := (encode stretch).length) (by omega) (by omega)
    simp only [hdrop, said_encode] at hsaid
    generalize (ZFunction.zFunction (encode tail).reverse).getD (encode stretch).length 0 /
      (encode stretch).length = again at hsaid hcut
    obtain ⟨kept, hkept, hsuffix, hlength⟩ := ((hsaid again).mpr (Nat.le_refl _)).cut front
    rw [hlength, toBoundary_encode (htext.trans hkept)] at hcut
    refine ⟨stretch, again + 1, kept, hloops, hleast, (hsaid again).mpr (Nat.le_refl _), ?_,
      htext.trans hkept, hsuffix, hcut.symm⟩
    rw [hsaid]
    omega

end LocalSpace.Repeating
