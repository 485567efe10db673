import Mathlib.Algebra.BigOperators.Group.List.Basic
import Mathlib.Algebra.Order.Ring.Int
import Mathlib.Data.List.Basic
import Mathlib.Data.List.TakeWhile

/-!
# UTF-8

A text's bytes (`encode`), and the text of bytes that are UTF-8 (`decode`): each gives the other
back. A byte below 128 is a character of its own; of another character the first byte leads and the
rest go on, so the characters of a text are told from its bytes wherever one begins to read.
-/

namespace Library

namespace Utf8

/-- A text's bytes. -/
def encode (text : List Char) : List UInt8 :=
  text.flatMap String.utf8EncodeChar

/-- The text of bytes that are UTF-8. -/
def decode (bytes : List UInt8) : Option (List Char) :=
  bytes.toByteArray.utf8Decode?.map Array.toList

theorem toByteArray_encode (text : List Char) : (encode text).toByteArray = text.utf8Encode := rfl

theorem decode_encode (text : List Char) : decode (encode text) = some text := by
  rw [decode, toByteArray_encode, List.utf8Decode?_utf8Encode]
  rfl

theorem encode_of_decode {bytes : List UInt8} {text : List Char} (h : decode bytes = some text) :
    encode text = bytes := by
  obtain ⟨chars, hchars, rfl⟩ := Option.map_eq_some_iff.mp h
  rw [← List.toByteArray_inj, toByteArray_encode]
  obtain ⟨hsome, rfl⟩ := Option.eq_some_iff_get_eq.mp hchars
  exact ByteArray.utf8Encode_get_utf8Decode?

theorem encode_nil : encode [] = [] := rfl

theorem encode_cons (c : Char) (text : List Char) :
    encode (c :: text) = String.utf8EncodeChar c ++ encode text := rfl

theorem encode_append (x y : List Char) : encode (x ++ y) = encode x ++ encode y :=
  List.flatMap_append

theorem encode_injective : Function.Injective encode := by
  intro x y h
  have hdecode := congrArg decode h
  rw [decode_encode, decode_encode, Option.some.injEq] at hdecode
  exact hdecode

/-- A byte that goes on a character. -/
def Continues (b : UInt8) : Prop :=
  128 ≤ b.toNat ∧ b.toNat < 192

instance (b : UInt8) : Decidable (Continues b) :=
  inferInstanceAs (Decidable (_ ∧ _))

theorem toNat_lt (c : Char) : c.val.toNat < 0x110000 := by
  rcases c.valid with h | h
  · exact Nat.lt_trans h (by decide)
  · exact h.2

/-- A character's bytes: one below 128, or a byte that leads and others that go on. -/
theorem encodeChar_cases (c : Char) :
    (∃ b : UInt8, String.utf8EncodeChar c = [b] ∧ b.toNat < 128 ∧ c.toNat = b.toNat) ∨
      ∃ b rest, String.utf8EncodeChar c = b :: rest ∧ rest ≠ [] ∧ 192 ≤ b.toNat ∧
        (∀ x ∈ rest, Continues x) ∧ 128 ≤ c.toNat := by
  have hlt := toNat_lt c
  have hval : c.toNat = c.val.toNat := rfl
  rw [hval]
  generalize hv : c.val.toNat = v at hlt
  have hcontinues : ∀ n, Continues (UInt8.ofNat (n % 64 + 128)) := by
    intro n
    rw [Continues, UInt8.toNat_ofNat']
    omega
  simp only [String.utf8EncodeChar, hv]
  split
  · next h =>
    refine .inl ⟨_, rfl, ?_⟩
    rw [UInt8.toNat_ofNat']
    omega
  · right
    split
    · refine ⟨_, _, rfl, by simp, ?_, ?_, by omega⟩
      · rw [UInt8.toNat_ofNat']
        omega
      · intro x hx
        rw [List.mem_singleton.mp hx]
        exact hcontinues _
    · split
      · refine ⟨_, _, rfl, by simp, ?_, ?_, by omega⟩
        · rw [UInt8.toNat_ofNat']
          omega
        · intro x hx
          simp only [List.mem_cons, List.not_mem_nil, or_false] at hx
          rcases hx with rfl | rfl <;> exact hcontinues _
      · refine ⟨_, _, rfl, by simp, ?_, ?_, by omega⟩
        · rw [UInt8.toNat_ofNat']
          omega
        · intro x hx
          simp only [List.mem_cons, List.not_mem_nil, or_false] at hx
          rcases hx with rfl | rfl | rfl <;> exact hcontinues _

/-- A byte below 128 in a text is a character of its own. -/
theorem mem_encode_ascii {text : List Char} {b : UInt8} (h : b ∈ encode text)
    (hb : b.toNat < 128) : Char.ofNat b.toNat ∈ text := by
  obtain ⟨c, hc, hmem⟩ := List.mem_flatMap.mp h
  rcases encodeChar_cases c with ⟨b', heq, -, hvalue⟩ | ⟨b', rest, heq, -, hlead, hrest, -⟩
  · rw [heq, List.mem_singleton] at hmem
    rw [hmem, ← hvalue, Char.ofNat_toNat]
    exact hc
  · rw [heq, List.mem_cons] at hmem
    rcases hmem with rfl | hmem
    · omega
    · have hcontinues := (hrest b hmem).1
      omega

/-- The bytes from 248 on are of no text. -/
theorem toNat_lt_of_mem_encode {text : List Char} {b : UInt8} (h : b ∈ encode text) :
    b.toNat < 248 := by
  obtain ⟨c, -, hc⟩ := List.mem_flatMap.mp h
  have hcontinues : ∀ n, (UInt8.ofNat (n % 64 + 128)).toNat < 248 := by
    intro n
    rw [UInt8.toNat_ofNat']
    omega
  simp only [String.utf8EncodeChar] at hc
  split_ifs at hc with hone htwo hthree
  · rw [List.mem_singleton.mp hc, UInt8.toNat_ofNat']
    omega
  all_goals
    simp only [List.mem_cons, List.not_mem_nil, or_false] at hc
    rcases hc with rfl | hc
    · rw [UInt8.toNat_ofNat']
      omega
  · rw [hc]
    exact hcontinues _
  · rcases hc with rfl | rfl <;> exact hcontinues _
  · rcases hc with rfl | rfl | rfl <;> exact hcontinues _

/-! ### Where bytes are cut -/

section Cutting

variable {x y : List UInt8} {text : List Char}

theorem encodeChar_append_inj {c d : Char} (h : String.utf8EncodeChar c ++ x =
    String.utf8EncodeChar d ++ y) : c = d ∧ x = y := by
  have hdecode := congrArg (fun bytes => bytes.toByteArray.utf8DecodeChar? 0) h
  simp only [List.toByteArray_append, ByteArray.utf8DecodeChar?_utf8EncodeChar_append,
    Option.some.injEq] at hdecode
  subst hdecode
  exact ⟨rfl, List.append_cancel_left h⟩

theorem encodeChar_ne (c : Char) : String.utf8EncodeChar c ≠ [] := by
  rcases encodeChar_cases c with ⟨b, heq, -⟩ | ⟨b, rest, heq, -⟩ <;> simp [heq]

/-- A text whose bytes begin with another's begins with that text. -/
theorem of_encode_append {start : List Char} (h : encode text = encode start ++ x) :
    ∃ rest, text = start ++ rest ∧ encode rest = x := by
  induction start generalizing text with
  | nil => exact ⟨text, rfl, h⟩
  | cons c start ih =>
    rcases text with _ | ⟨d, text⟩
    · have hnil := congrArg List.isEmpty h
      simp [encode_cons, encode_nil] at hnil
    · rw [encode_cons, encode_cons, List.append_assoc] at h
      obtain ⟨rfl, hlater⟩ := encodeChar_append_inj h
      obtain ⟨rest, rfl, hrest⟩ := ih hlater
      exact ⟨rest, rfl, hrest⟩

/-- Bytes that are cut where none goes on a character are cut between two. -/
theorem split_of_lead (h : encode text = x ++ y) (hy : ∀ b ∈ y.head?, ¬Continues b) :
    ∃ before after, text = before ++ after ∧ encode before = x ∧ encode after = y := by
  induction text generalizing x with
  | nil =>
    obtain ⟨rfl, rfl⟩ := List.nil_eq_append_iff.mp h
    exact ⟨[], [], rfl, rfl, rfl⟩
  | cons c text ih =>
    rcases x with _ | ⟨b, x⟩
    · exact ⟨[], c :: text, rfl, rfl, h⟩
    · rw [encode_cons] at h
      rcases List.append_eq_append_iff.mp h with ⟨more, hx, hrest⟩ | ⟨more, hc, hy'⟩
      · obtain ⟨before, after, rfl, rfl, hafter⟩ := ih hrest
        exact ⟨c :: before, after, rfl, hx.symm, hafter⟩
      · rcases more with _ | ⟨d, more⟩
        · rw [List.append_nil] at hc
          exact ⟨[c], text, rfl, by rw [encode_cons, hc, encode_nil, List.append_nil], hy'.symm⟩
        · -- what would follow the cut goes on the character
          exfalso
          refine hy d (by simp [hy']) ?_
          rcases encodeChar_cases c with ⟨b', heq, -⟩ | ⟨b', rest, heq, -, -, hrest, -⟩
          · rw [heq] at hc
            simp at hc
          · rw [heq, List.cons_append, List.cons.injEq] at hc
            exact hrest d (by simp [hc.2])

/-- Each character has one byte that goes on none. -/
theorem countP_encode (text : List Char) :
    (encode text).countP (fun b => ¬Continues b) = text.length := by
  induction text with
  | nil => rfl
  | cons c text ih =>
    rw [encode_cons, List.countP_append, ih, List.length_cons, Nat.add_comm]
    congr 1
    rcases encodeChar_cases c with ⟨b, heq, hb, -⟩ | ⟨b, rest, heq, -, hb, hrest, -⟩
    · have hlead : ¬Continues b := fun h => by
        have := h.1
        omega
      rw [heq]
      simp [hlead]
    · have hlead : ¬Continues b := fun h => by
        have := h.2
        omega
      have hnone : rest.countP (fun b => ¬Continues b) = 0 := by
        rw [List.countP_eq_zero]
        intro x hx
        simpa using hrest x hx
      rw [heq, List.countP_cons, hnone]
      simp [hlead]

/-- A text begins with a byte that goes on no character. -/
theorem encode_lead (text : List Char) : ∀ b ∈ (encode text).head?, ¬Continues b := by
  rcases text with _ | ⟨c, text⟩
  · simp [encode_nil]
  · rw [encode_cons]
    rcases encodeChar_cases c with ⟨b, heq, hb, -⟩ | ⟨b, rest, heq, -, hb, -⟩
    · simp only [heq, List.cons_append, List.head?_cons, Option.mem_some_iff, forall_eq']
      rintro ⟨h, -⟩
      omega
    · simp only [heq, List.cons_append, List.head?_cons, Option.mem_some_iff, forall_eq']
      rintro ⟨-, h⟩
      omega

/-- Bytes that only go on are no text's. -/
theorem eq_nil_of_continues (h : ∀ b ∈ encode text, Continues b) : text = [] := by
  have hcount := countP_encode text
  rw [List.countP_eq_zero.mpr (by simpa using h)] at hcount
  exact List.length_eq_zero_iff.mp hcount.symm

/-- A text that ends with another's bytes ends with that text. -/
theorem of_append_encode {last : List Char} (h : encode text = x ++ encode last) :
    ∃ start, text = start ++ last ∧ encode start = x := by
  obtain ⟨before, after, rfl, hbefore, hafter⟩ := split_of_lead h (encode_lead last)
  rw [encode_injective hafter]
  exact ⟨before, rfl, hbefore⟩

theorem encodeChar_length (c : Char) : (String.utf8EncodeChar c).length ≤ 4 := by
  rw [String.length_utf8EncodeChar]
  exact c.utf8Size_le_four

/-- A text ends with at most three bytes that go on. -/
theorem continues_short (h : encode text = x ++ y) (hy : ∀ b ∈ y, Continues b) :
    y.length ≤ 3 := by
  induction text generalizing x with
  | nil =>
    obtain ⟨rfl, rfl⟩ := List.nil_eq_append_iff.mp h
    simp
  | cons c text ih =>
    rw [encode_cons] at h
    rcases List.append_eq_append_iff.mp h with ⟨more, -, hrest⟩ | ⟨more, hc, hy'⟩
    · exact ih hrest
    · have hnil : text = [] := by
        refine eq_nil_of_continues fun b hb => hy b ?_
        rw [hy']
        exact List.mem_append_right _ hb
      subst hnil
      rw [encode_nil, List.append_nil] at hy'
      subst hy'
      have hlength := encodeChar_length c
      rcases x with _ | ⟨b, x⟩
      · rw [List.nil_append] at hc
        have hnone : [c] = [] := by
          refine eq_nil_of_continues fun b hb => hy b ?_
          rw [encode_cons, encode_nil, List.append_nil, hc] at hb
          exact hb
        exact absurd hnone (List.cons_ne_nil c [])
      · rw [hc] at hlength
        simp at hlength
        omega

/-- What a text ends with said twice, of so many bytes, is a text. -/
theorem of_twice (h : encode text = x ++ y ++ y) (hy : 4 ≤ y.length) :
    ∃ start said, text = start ++ said ++ said ∧ encode said = y := by
  -- the bytes at its start that go on the character before
  obtain ⟨u, v, rfl, hu, hv⟩ : ∃ u v, y = u ++ v ∧ (∀ b ∈ u, Continues b) ∧
      ∀ b ∈ v.head?, ¬Continues b := by
    refine ⟨y.takeWhile (Continues ·), y.dropWhile (Continues ·),
      List.takeWhile_append_dropWhile.symm, ?_, ?_⟩
    · intro b hb
      simpa using List.mem_takeWhile_imp hb
    · intro b hb
      have := List.head?_dropWhile_not (fun b => decide (Continues b)) y
      rw [Option.mem_def.mp hb] at this
      simpa using this
  obtain ⟨before, last, rfl, hbefore, hlast⟩ := split_of_lead (x := x ++ (u ++ v) ++ u) (y := v)
    (by rw [h]; simp) hv
  -- not all of it goes on, for it is too long
  have hne : v ≠ [] := by
    rintro rfl
    have := continues_short (x := x) (y := u ++ u) (by rw [h]; simp) (by simpa using hu)
    simp at this hy
    omega
  obtain ⟨start, rest, rfl, hstart, hrest⟩ := split_of_lead (x := x ++ u) (y := v ++ u)
    (by rw [hbefore]; simp) (by
      rcases v with _ | ⟨b, v⟩
      · exact absurd rfl hne
      · simpa using hv)
  have hrest' : encode rest = encode last ++ u := by rw [hrest, hlast]
  obtain ⟨more, rfl, hmore⟩ := of_encode_append hrest'
  -- what the first saying has beyond the last text only goes on, so there is none of it
  have hnil : more = [] := by
    refine eq_nil_of_continues fun b hb => hu b ?_
    rwa [hmore] at hb
  subst hnil
  obtain rfl : u = [] := hmore.symm
  exact ⟨start, last, by simp, by simpa using hlast⟩

end Cutting

end Utf8

end Library
