import LocalSpace.Gateway
import LocalSpace.Library.LeadingBits

/-!
# Address ranges

`gateway.rs`: what the patterns of a list match (`matches_any`). The code compares addresses under a
mask, with arithmetic that can overflow; what a range means is said of the bits of an address.
-/

namespace LocalSpace

namespace Net

open Library

/-! ### With the machine's arithmetic -/

/-- A subtraction that must not pass below zero. -/
def checkedSub (a b : ℕ) : Option ℕ :=
  if b ≤ a then some (a - b) else none

/-- `Iterator::any`, up to the first that is true. -/
def anyChecked {α : Type} (f : α → Option Bool) : List α → Option Bool
  | [] => some false
  | x :: l => (f x).bind fun found => if found then some true else anyChecked f l

namespace Ip

/-- The bits of its family. -/
def width : Ip → ℕ
  | v4 _ => 32
  | v6 _ => 128

@[grind =]
def value : Ip → ℕ
  | v4 n => n
  | v6 n => n

/-- An address is a number of its family's bits. -/
def Fits (a : Ip) : Prop :=
  a.value < 2 ^ a.width

/-- An address counts as itself, and one of the newer family that maps one of the older
(`::ffff:a.b.c.d`) as that. -/
inductive CountsAs : Ip → Ip → Prop
  | v4 (n : ℕ) : CountsAs (v4 n) (v4 n)
  | mapped {n : ℕ} (h : n < 2 ^ 32) : CountsAs (v6 (0xFFFF * 2 ^ 32 + n)) (v4 n)
  | v6 {n : ℕ} (h : ∀ m < 2 ^ 32, n ≠ 0xFFFF * 2 ^ 32 + m) : CountsAs (v6 n) (v6 n)

/-- Two addresses of one family have the same first bits. -/
def Shares (bits : ℕ) (a n : Ip) : Prop :=
  a.width = n.width ∧ bits ≤ a.width ∧ SameLeading a.width bits a.value n.value

end Ip

/-- What a pattern means of a host, both in lower case. -/
inductive Matches (host : List Char) : List Char → Prop
  | wildcard {suffix : List Char} (h : host = suffix ∨ '.' :: suffix <:+ host) :
    Matches host ('*' :: '.' :: suffix)
  | range {network bits : List Char} {written address writtenNetwork n : Ip} {b : ℕ}
    (hname : ¬['*', '.'] <+: network ++ '/' :: bits) (hslash : '/' ∉ network)
    (haddress : parseIp host = some written) (hcounts : written.CountsAs address)
    (hnetwork : parseIp (unbracket network) = some writtenNetwork)
    (hcounts' : writtenNetwork.CountsAs n) (hbits : parseU32 (String.ofList bits) = some b)
    (hshares : address.Shares b n) : Matches host (network ++ '/' :: bits)
  | bare {pattern : List Char} (hname : ¬['*', '.'] <+: pattern) (hslash : '/' ∉ pattern)
    (h : host = unbracket pattern) : Matches host pattern

/-! ### Addresses are numbers of their family's bits -/

section Parsing

variable {α β : Type} {l : List Char} {gs : List ℕ} {n d : ℕ} {a : Ip} {last : Bool}

end Parsing

/-! ### Ranges -/

section Ranges

variable {a n : Ip} {network bits : List Char} {b : ℕ}

end Ranges

/-! ### Patterns -/

section Patterns

variable {host : List Char} {a b l : List Char}

end Patterns

end Net

end LocalSpace
