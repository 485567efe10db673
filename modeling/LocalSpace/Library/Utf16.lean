import Mathlib.Data.List.Basic
import LocalSpace.Library.Utf8

/-!
# UTF-16

A text in units of sixteen bits (`encodeUnits`), the characters and the lone surrogates of units
(`decodeUnits`), and units as bytes in either order (`bytesOf`, `units`): what is written is read.
-/

namespace Library

namespace Utf16

/-- A character's unit, or its two. -/
def encodeChar (c : Char) : List ℕ :=
  if c.toNat < 0x10000 then [c.toNat]
  else [0xD800 + (c.toNat - 0x10000) / 1024, 0xDC00 + (c.toNat - 0x10000) % 1024]

def encodeUnits (text : List Char) : List ℕ :=
  text.flatMap encodeChar

/-- The characters of units, and `none` for each surrogate that is alone. -/
def decodeUnits : List ℕ → List (Option Char)
  | [] => []
  | u :: rest =>
    if u < 0xD800 ∨ 0xE000 ≤ u then some (Char.ofNat u) :: decodeUnits rest
    else if 0xDC00 ≤ u then none :: decodeUnits rest
    else
      match rest with
      | [] => [none]
      | v :: more =>
        if 0xDC00 ≤ v ∧ v < 0xE000 then
          some (Char.ofNat (0x10000 + (u - 0xD800) * 1024 + (v - 0xDC00))) :: decodeUnits more
        else none :: decodeUnits (v :: more)

/-- Units as bytes, the low byte first or the high one. -/
def bytesOf (littleEndian : Bool) (us : List ℕ) : List UInt8 :=
  us.flatMap fun u =>
    if littleEndian then [UInt8.ofNat (u % 256), UInt8.ofNat (u / 256)]
    else [UInt8.ofNat (u / 256), UInt8.ofNat (u % 256)]

/-- The units of bytes; an odd last byte is of none. -/
def units (littleEndian : Bool) : List UInt8 → List ℕ
  | a :: b :: rest =>
    (if littleEndian then a.toNat + b.toNat * 256 else a.toNat * 256 + b.toNat) ::
      units littleEndian rest
  | _ => []

theorem decodeUnits_encodeUnits (text : List Char) :
    decodeUnits (encodeUnits text) = text.map some := by
  induction text with
  | nil => rfl
  | cons c text ih =>
    have hlt := Utf8.toNat_lt c
    have hval : c.toNat = c.val.toNat := rfl
    rw [← hval] at hlt
    rw [encodeUnits, List.flatMap_cons, ← encodeUnits, encodeChar]
    split_ifs with hone
    · have hplain : c.toNat < 0xD800 ∨ 0xE000 ≤ c.toNat := by
        rcases c.valid with h | h
        · exact .inl h
        · exact .inr h.1
      rw [List.singleton_append, decodeUnits.eq_def]
      simp only [if_pos hplain, ih, Char.ofNat_toNat, List.map_cons]
    · have hvalue : 0x10000 + (0xD800 + (c.toNat - 0x10000) / 1024 - 0xD800) * 1024 +
          (0xDC00 + (c.toNat - 0x10000) % 1024 - 0xDC00) = c.toNat := by omega
      rw [List.cons_append, List.singleton_append, decodeUnits.eq_def]
      simp only
      rw [if_neg (by omega), if_neg (by omega), if_pos (by omega), hvalue, Char.ofNat_toNat, ih]
      rfl

theorem encodeUnits_lt (text : List Char) : ∀ u ∈ encodeUnits text, u < 65536 := by
  intro u hu
  obtain ⟨c, -, hc⟩ := List.mem_flatMap.mp hu
  have hlt := Utf8.toNat_lt c
  have hval : c.toNat = c.val.toNat := rfl
  rw [← hval] at hlt
  rw [encodeChar] at hc
  split_ifs at hc
  · rw [List.mem_singleton.mp hc]
    omega
  · simp only [List.mem_cons, List.not_mem_nil, or_false] at hc
    omega

theorem units_bytesOf (littleEndian : Bool) {us : List ℕ} (h : ∀ u ∈ us, u < 65536) :
    units littleEndian (bytesOf littleEndian us) = us := by
  induction us with
  | nil => rfl
  | cons u us ih =>
    have hu := h u List.mem_cons_self
    have hlow : (UInt8.ofNat (u % 256)).toNat = u % 256 := by
      rw [UInt8.toNat_ofNat']
      omega
    have hhigh : (UInt8.ofNat (u / 256)).toNat = u / 256 := by
      rw [UInt8.toNat_ofNat']
      omega
    have hrest := ih fun v hv => h v (List.mem_cons_of_mem u hv)
    rw [bytesOf, List.flatMap_cons, ← bytesOf]
    cases littleEndian
    · simp only [Bool.false_eq_true, if_false, List.cons_append, List.nil_append, units, hlow,
        hhigh, hrest]
      rw [show u / 256 * 256 + u % 256 = u by omega]
    · simp only [if_true, List.cons_append, List.nil_append, units, hlow, hhigh, hrest]
      rw [show u % 256 + u / 256 * 256 = u by omega]

/-- A text in UTF-16 of either order is read as it was written. -/
theorem decodeUnits_units (littleEndian : Bool) (text : List Char) :
    decodeUnits (units littleEndian (bytesOf littleEndian (encodeUnits text))) =
      text.map some := by
  rw [units_bytesOf littleEndian (encodeUnits_lt text), decodeUnits_encodeUnits]

end Utf16

end Library
