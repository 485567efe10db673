import LocalSpace.Ranges

/-!
# Behind proxies

`net.rs` of the server: the ranges of `trusted_proxies`, and whose address a request carries. Behind a
trusted proxy it is the rightmost hop of `X-Forwarded-For` that is none itself, among those that can
be read; a hop that cannot is passed over, and what stands left of it is the client's own text.
-/

namespace LocalSpace

namespace Net

namespace Proxies

open Library

/-! ### Ranges -/

/-- An address range: its first address, and how many bits of it count. -/
structure Cidr where
  network : Ip
  bits : ℕ
  deriving DecidableEq

/-- The mask of a family's addresses; `none` where a subtraction or a shift overflows. -/
def maskBits (w bits : ℕ) : Option (BitVec w) :=
  if bits = 0 then some 0 else (checkedSub w bits).bind (checkedShl (BitVec.allOnes w))

def mask (ip : Ip) (bits : ℕ) : Option Ip :=
  match ip with
  | .v4 a => (maskBits 32 bits).map fun m => .v4 (BitVec.ofNat 32 a &&& m).toNat
  | .v6 a => (maskBits 128 bits).map fun m => .v6 (BitVec.ofNat 128 a &&& m).toNat

def trimmed (l : List Char) : List Char :=
  (trim (String.ofList l)).toList

/-- `str::parse::<u8>`. -/
def parseU8 (l : List Char) : Option ℕ :=
  (parseU32 (String.ofList l)).filter fun n => n < 256

def isV4 : Ip → Bool
  | .v4 _ => true
  | .v6 _ => false

namespace Cidr

/-- The address a text names, and its bits where it gives them. -/
@[grind =]
def parts (s : List Char) : List Char × Option (List Char) :=
  match splitOnce ['/'] s with
  | some (addr, bits) => (addr, some bits)
  | none => (s, none)

/-- `Cidr::from_str`; `none` where its arithmetic overflows. -/
def fromStr (text : String) : Option (Except String Cidr) :=
  let s := trimmed text.toList
  match parseIp (parts s).1 with
  | none =>
    some (.error s!"`{String.ofList s}` is not an address or a range like 10.0.0.0/8")
  | some ip =>
    let ip := plain ip
    let bits := if isV4 ip then 32 else 128
    match (parts s).2 with
    | none => (mask ip bits).map fun network => .ok ⟨network, bits⟩
    | some p =>
      match (parseU8 p).filter fun p => p ≤ bits with
      | none => some (.error s!"`{String.ofList s}`: the prefix must be 0 to {bits}")
      | some p => (mask ip p).map fun network => .ok ⟨network, p⟩

/-- `Cidr::contains`; `none` where its arithmetic overflows. -/
def contains (c : Cidr) (ip : Ip) : Option Bool :=
  let ip := plain ip
  if isV4 ip = isV4 c.network then (mask ip c.bits).map fun masked => masked = c.network
  else some false

/-- A range that a text was read as: there is no other way to one. -/
def Accepted (c : Cidr) : Prop :=
  ∃ text, fromStr text = some (.ok c)

end Cidr

/-! ### Hops -/

/-- A number of decimal digits below a limit. -/
def parseNumber (limit : ℕ) (l : List Char) : Option ℕ :=
  if l.isEmpty ∨ !l.all Char.isDigit then none
  else (some (l.foldl (fun n c => n * 10 + (c.toNat - 48)) 0)).filter fun n => n < limit

/-- An IPv6 address, with the number of a scope or without. -/
def parseScoped (l : List Char) : Option ℕ :=
  match splitOnce ['%'] l with
  | none => parseV6 l
  | some (addr, scope) => (parseNumber (2 ^ 32) scope).bind fun _ => parseV6 addr

/-- `str::parse::<SocketAddr>`, and its address. -/
def parseSocketAddr (l : List Char) : Option Ip :=
  match l with
  | '[' :: inside =>
    match splitOnce [']', ':'] inside with
    | none => none
    | some (addr, port) =>
      (parseNumber (2 ^ 16) port).bind fun _ => (parseScoped addr).map .v6
  | l =>
    match splitOnce [':'] l with
    | none => none
    | some (addr, port) => (parseNumber (2 ^ 16) port).bind fun _ => (parseV4 addr).map .v4

def parseHop (hop : List Char) : Option Ip :=
  ((parseIp hop).or (parseSocketAddr hop)).map plain

/-- The hops of a header that can be read. -/
def hops (header : List Char) : List Ip :=
  (splitAt ',' header).filterMap fun hop => parseHop (trimmed hop)

/-! ### Whose address -/

def isTrusted (ip : Ip) (trusted : List Cidr) : Option Bool :=
  anyChecked (fun range => range.contains ip) trusted

/-- `Iterator::find`. -/
def findChecked {α : Type} (f : α → Option Bool) : List α → Option (Option α)
  | [] => some none
  | x :: l => (f x).bind fun found => if found then some (some x) else findChecked f l

/-- `client_ip`; `none` where its arithmetic overflows. -/
def clientIp (peer : Option Ip) (forwardedFor : Option (List Char)) (trusted : List Cidr) :
    Option (Option Ip) :=
  match peer with
  | none => some none
  | some peer => do
    if !(← isTrusted peer trusted) then return some peer
    match forwardedFor with
    | none => return some peer
    | some header =>
      -- From the right, the first hop that is not a trusted proxy is the client.
      let client ← findChecked (fun hop => (isTrusted hop trusted).map (!·)) (hops header).reverse
      return (client.or (hops header).head?).or (some peer)

/-! ### Masks -/

section Masks

variable {w b : ℕ} {a n : Ip} {c : Cidr}

theorem maskBits_eq (hb : b ≤ w) : maskBits w b = some (maskAbove w (w - b)) := by
  rw [maskBits, maskAbove]
  by_cases hzero : b = 0
  · have hnot : ¬w - b < w := by
      omega
    rw [if_pos hzero, checkedShl, if_neg hnot, Option.getD_none]
  · have hlt : w - b < w := by
      omega
    rw [if_neg hzero, checkedSub, if_pos hb, Option.bind_some, checkedShl, if_pos hlt,
      Option.getD_some]

theorem mask_v4 {a : ℕ} (hb : b ≤ 32) :
    mask (.v4 a) b = some (.v4 (BitVec.ofNat 32 a &&& maskAbove 32 (32 - b)).toNat) := by
  rw [mask, maskBits_eq hb, Option.map_some]

theorem mask_v6 {a : ℕ} (hb : b ≤ 128) :
    mask (.v6 a) b = some (.v6 (BitVec.ofNat 128 a &&& maskAbove 128 (128 - b)).toNat) := by
  rw [mask, maskBits_eq hb, Option.map_some]

/-- A mask is made without overflow where the family has so many bits, and made again it is the
same. -/
theorem mask_some (hb : b ≤ a.width) :
    ∃ n, mask a b = some n ∧ n.width = a.width ∧ mask n b = some n := by
  rcases a with a | a
  · refine ⟨_, mask_v4 hb, rfl, ?_⟩
    rw [mask_v4 hb, BitVec.ofNat_toNat, BitVec.setWidth_eq, BitVec.and_assoc, BitVec.and_self]
  · refine ⟨_, mask_v6 hb, rfl, ?_⟩
    rw [mask_v6 hb, BitVec.ofNat_toNat, BitVec.setWidth_eq, BitVec.and_assoc, BitVec.and_self]

/-- Two addresses have one mask when their first bits are the same. -/
theorem mask_eq_mask_iff (hb : b ≤ a.width) (hw : a.width = n.width) :
    mask a b = mask n b ↔ SameLeading a.width b a.value n.value := by
  rcases a with a | a <;> rcases n with n | n
  · rw [mask_v4 hb, mask_v4 hb, Option.some.injEq, Ip.v4.injEq, BitVec.toNat_inj]
    exact and_maskAbove_eq_iff hb
  · simp [Ip.width] at hw
  · simp [Ip.width] at hw
  · rw [mask_v6 hb, mask_v6 hb, Option.some.injEq, Ip.v6.injEq, BitVec.toNat_inj]
    exact and_maskAbove_eq_iff hb

theorem isV4_eq_iff : isV4 a = isV4 n ↔ a.width = n.width := by
  rcases a with a | a <;> rcases n with n | n <;> simp [isV4, Ip.width]

/-- A range of its family's bits, and of the first address with them. -/
structure Cidr.Ok (c : Cidr) : Prop where
  bits : c.bits ≤ c.network.width
  first : mask c.network c.bits = some c.network

/-- **What a range holds**: the addresses of its family with its first bits, and no arithmetic
overflows. -/
theorem Cidr.Ok.contains_eq (h : c.Ok) :
    ∃ found, c.contains a = some found ∧
      (found = true ↔ (plain a).Shares c.bits c.network) := by
  rw [Cidr.contains]
  split_ifs with hfamily
  · have hwidth := isV4_eq_iff.mp hfamily
    have hbits : c.bits ≤ (plain a).width := hwidth ▸ h.bits
    obtain ⟨masked, hmasked, -, -⟩ := mask_some hbits
    refine ⟨_, by rw [hmasked, Option.map_some], ?_⟩
    have hsame := mask_eq_mask_iff hbits hwidth
    rw [hmasked, h.first, Option.some.injEq] at hsame
    rw [decide_eq_true_iff, hsame]
    exact ⟨fun hlead => ⟨hwidth, hbits, hlead⟩, fun hshares => hshares.2.2⟩
  · refine ⟨false, rfl, ?_⟩
    simp only [Bool.false_eq_true, false_iff]
    exact fun hshares => hfamily (isV4_eq_iff.mpr hshares.1)

/-- The address that a text's range is of. -/
def Cidr.addressOf (text : String) : Option Ip :=
  (parseIp (parts (trimmed text.toList)).1).map plain

/-- **A range is read without overflow**, and what is read is of its family's bits and begins as the
address that was written. -/
theorem Cidr.fromStr_eq (text : String) : ∃ r, fromStr text = some r ∧
    ∀ c, r = .ok c → c.Ok ∧ ∃ n, addressOf text = some n ∧ n.Shares c.bits c.network := by
  delta fromStr addressOf
  dsimp only
  rcases hparse : parseIp (parts (trimmed text.toList)).1 with _ | ip
  · exact ⟨_, rfl, by simp⟩
  dsimp only
  have hmade : ∀ {b : ℕ}, b ≤ (plain ip).width → ∃ r,
      ((mask (plain ip) b).map fun network => (.ok ⟨network, b⟩ : Except String Cidr)) = some r ∧
      ∀ c, r = .ok c → c.Ok ∧ ∃ n, (some ip).map plain = some n ∧
        n.Shares c.bits c.network := by
    intro b hb
    obtain ⟨n, hmask, hwidth, hagain⟩ := mask_some hb
    refine ⟨_, by rw [hmask, Option.map_some], fun c hc => ?_⟩
    obtain rfl := Except.ok.inj hc
    refine ⟨⟨hwidth ▸ hb, hagain⟩, _, rfl, hwidth.symm, hb, ?_⟩
    exact (mask_eq_mask_iff hb hwidth.symm).mp (hmask.trans hagain.symm)
  have hwidth : (if isV4 (plain ip) = true then 32 else 128) = (plain ip).width := by
    rcases plain ip with n | n <;> rfl
  rw [hwidth]
  rcases (parts (trimmed text.toList)).2 with _ | p
  · exact hmade (le_refl _)
  · dsimp only
    rcases hbits : (parseU8 p).filter fun p => p ≤ (plain ip).width with _ | b
    · exact ⟨_, rfl, by simp⟩
    · exact hmade (by simpa using (Option.filter_eq_some_iff.mp hbits).2)

theorem Cidr.Accepted.ok (h : c.Accepted) : c.Ok := by
  obtain ⟨text, htext⟩ := h
  obtain ⟨r, hr, hok⟩ := Cidr.fromStr_eq text
  exact (hok c (Option.some.inj (hr.symm.trans htext))).1

end Masks

/-! ### Hops -/

section Hops

variable {trusted : List Cidr} {ip peer : Ip} {h hop t : List Char}

theorem splitAt_append (sep : Char) (a b : List Char) :
    splitAt sep (a ++ sep :: b) = splitAt sep a ++ splitAt sep b := by
  induction a with
  | nil => simp [splitAt]
  | cons c a ih =>
    rw [List.cons_append, splitAt, splitAt, ih]
    split_ifs with hc
    · rfl
    · have hne : splitAt sep a ≠ [] := by
        rcases a with _ | ⟨d, a⟩
        · simp [splitAt]
        · rw [splitAt]
          split_ifs
          · simp
          · split <;> simp
      rcases hparts : splitAt sep a with _ | ⟨p, ps⟩
      · exact absurd hparts hne
      · rfl

theorem splitAt_single {sep : Char} (hsep : sep ∉ h) : splitAt sep h = [h] := by
  induction h with
  | nil => rfl
  | cons c h ih =>
    simp only [List.mem_cons, not_or] at hsep
    rw [splitAt, if_neg (Ne.symm hsep.1), ih hsep.2]

theorem findChecked_eq {α : Type} {f : α → Option Bool} {g : α → Bool}
    (h : ∀ x, f x = some (g x)) (l : List α) : findChecked f l = some (l.find? g) := by
  induction l with
  | nil => rfl
  | cons x l ih =>
    rw [findChecked, h, Option.bind_some, ih, List.find?_cons]
    rcases g x <;> rfl

/-- The address of a trusted proxy. -/
def Proxied (trusted : List Cidr) (ip : Ip) : Prop :=
  ∃ c ∈ trusted, (plain ip).Shares c.bits c.network

open Classical in
/-- Whether an address is a trusted proxy's is decided without overflow. -/
theorem isTrusted_eq (htrusted : ∀ c ∈ trusted, c.Ok) :
    isTrusted ip trusted = some (decide (Proxied trusted ip)) := by
  induction trusted with
  | nil => simp [isTrusted, anyChecked, Proxied]
  | cons c trusted ih =>
    obtain ⟨hc, hrest⟩ := List.forall_mem_cons.mp htrusted
    obtain ⟨found, hfound, hiff⟩ := hc.contains_eq (a := ip)
    have ih := ih hrest
    rw [isTrusted] at ih ⊢
    rw [anyChecked, hfound, Option.bind_some, ih]
    rcases found with _ | _
    · have hnot : ¬(plain ip).Shares c.bits c.network := by simpa using hiff
      exact congrArg some (decide_eq_decide.mpr (by simp [Proxied, hnot]))
    · have hshares := hiff.mp rfl
      simp [Proxied, hshares]

theorem hops_append (a b : List Char) : hops (a ++ ',' :: b) = hops a ++ hops b := by
  rw [hops, splitAt_append, List.filterMap_append]
  rfl

theorem hops_single (hcomma : ',' ∉ hop) : hops hop = (parseHop (trimmed hop)).toList := by
  rw [hops, splitAt_single hcomma, List.filterMap_cons, List.filterMap_nil]
  rcases parseHop (trimmed hop) with _ | ip <;> rfl

open Classical in
/-- From a trusted proxy: the rightmost hop that is none, or the leftmost. -/
theorem clientIp_eq (htrusted : ∀ c ∈ trusted, c.Ok) (hpeer : Proxied trusted peer)
    (header : List Char) : clientIp (some peer) (some header) trusted =
      some ((((hops header).reverse.find? fun hop => !decide (Proxied trusted hop)).or
        (hops header).head?).or (some peer)) := by
  have hfind : ∀ hop, (isTrusted hop trusted).map (!·) = some !decide (Proxied trusted hop) := by
    intro hop
    rw [isTrusted_eq htrusted, Option.map_some]
  rw [clientIp, findChecked_eq hfind]
  simp only [isTrusted_eq htrusted, hpeer, decide_true, Bool.not_true, Bool.false_eq_true, if_false,
    bind, Option.bind_some, pure]

/-- Right of `hop` there are only trusted proxies. -/
def Behind (trusted : List Cidr) (t : List Char) : Prop :=
  ∀ part ∈ splitAt ',' t, ∃ ip, parseHop (trimmed part) = some ip ∧ Proxied trusted ip

theorem Behind.hops (ht : Behind trusted t) : ∀ ip ∈ hops t, Proxied trusted ip := by
  intro ip hip
  obtain ⟨part, hpart, hread⟩ := List.mem_filterMap.mp hip
  obtain ⟨ip', hread', hproxied⟩ := ht part hpart
  rw [hread, Option.some.injEq] at hread'
  rwa [hread']

/-- An address that is read where no proxy stands right of it, but trusted ones: it is the client
where it is none of them, or no other hop is there. -/
theorem clientIp_hop (htrusted : ∀ c ∈ trusted, c.Ok) (hpeer : Proxied trusted peer)
    (ht : Behind trusted t) {header : List Char} (before : List Ip)
    (hheader : hops header = before ++ ip :: hops t) (h : ¬Proxied trusted ip ∨ before = []) :
    clientIp (some peer) (some header) trusted = some (some ip) := by
  classical
  have hnone : (hops t).reverse.find? (fun hop => !decide (Proxied trusted hop)) = none := by
    rw [List.find?_eq_none]
    intro hop hhop
    simpa using ht.hops hop (List.mem_reverse.mp hhop)
  rw [clientIp_eq htrusted hpeer, hheader, List.reverse_append, List.reverse_cons,
    List.append_assoc, List.find?_append, hnone, Option.none_or, List.singleton_append,
    List.find?_cons]
  by_cases hip : Proxied trusted ip
  · obtain rfl := h.resolve_left (not_not_intro hip)
    simp [hip]
  · simp [hip]

/-- **A client cannot choose its own address**, where the hop that the trusted proxies were reached
from can be read. A connection that is no trusted proxy's is the client whatever the header says, and
a range holds the addresses with its first bits. -/
theorem client_ip_independent (htrusted : ∀ c ∈ trusted, c.Accepted) :
    (∀ peer, Proxied trusted peer → ∀ hop t, ',' ∉ hop → Behind trusted t →
      (∀ ip, parseHop (trimmed hop) = some ip → ¬Proxied trusted ip) →
      ((∀ h h', clientIp (some peer) (some (h ++ ',' :: (hop ++ ',' :: t))) trusted =
          clientIp (some peer) (some (h' ++ ',' :: (hop ++ ',' :: t))) trusted) ↔
        (parseHop (trimmed hop)).isSome = true)) ∧
    (∀ peer, ¬Proxied trusted peer → ∀ header,
      clientIp (some peer) header trusted = some (some peer)) ∧
    ∀ text, ∃ r, Cidr.fromStr text = some r ∧ ∀ c, r = .ok c →
      (∃ n, Cidr.addressOf text = some n ∧ n.Shares c.bits c.network) ∧
      ∀ a, ∃ found, c.contains a = some found ∧
        (found = true ↔ (plain a).Shares c.bits c.network) := by
  have hok : ∀ c ∈ trusted, c.Ok := fun c hc => (htrusted c hc).ok
  refine ⟨fun peer hpeer hop t hcomma ht hhop => ?_, fun peer hpeer header => ?_, fun text => ?_⟩
  · have hheader : ∀ h, hops (h ++ ',' :: (hop ++ ',' :: t)) =
        hops h ++ ((parseHop (trimmed hop)).toList ++ hops t) := by
      intro h
      rw [hops_append, hops_append, hops_single hcomma]
    rcases hread : parseHop (trimmed hop) with _ | ip
    · simp only [Option.isSome_none, Bool.false_eq_true, iff_false, not_forall]
      have hclaimed : ∀ h a, hops h = [a] →
          clientIp (some peer) (some (h ++ ',' :: (hop ++ ',' :: t))) trusted = some (some a) := by
        intro h a ha
        refine clientIp_hop hok hpeer ht [] ?_ (Or.inr rfl)
        rw [hheader, hread, ha]
        rfl
      refine ⟨['1', '.', '1', '.', '1', '.', '1'], ['2', '.', '2', '.', '2', '.', '2'], fun h => ?_⟩
      rw [hclaimed _ (.v4 16843009) (by decide), hclaimed _ (.v4 33686018) (by decide)] at h
      simp at h
    · simp only [Option.isSome_some, iff_true]
      have hclient : ∀ h,
          clientIp (some peer) (some (h ++ ',' :: (hop ++ ',' :: t))) trusted = some (some ip) := by
        intro h
        refine clientIp_hop hok hpeer ht (hops h) ?_ (Or.inl (hhop ip hread))
        rw [hheader, hread]
        rfl
      intro h h'
      rw [hclient h, hclient h']
  · classical
    unfold clientIp
    simp [isTrusted_eq hok, hpeer]
  · obtain ⟨r, hr, hall⟩ := Cidr.fromStr_eq text
    exact ⟨r, hr, fun c hc => ⟨(hall c hc).2, fun a => (hall c hc).1.contains_eq⟩⟩

end Hops

namespace Sample

/-- `10.0.0.0/8`. -/
@[grind =]
def ten : Cidr :=
  ⟨.v4 (10 * 2 ^ 24), 8⟩

theorem ten_accepted : ten.Accepted :=
  ⟨String.ofList ['1', '0', '.', '0', '.', '0', '.', '0', '/', '8'], by decide⟩

theorem ten_trusted : ∀ c ∈ [ten], c.Accepted := by
  simpa using ten_accepted

/-- `10.0.0.4` and `10.0.0.5` are proxies. -/
theorem ten_proxied {n : ℕ} (h : n = 4 ∨ n = 5) : Proxied [ten] (.v4 (10 * 2 ^ 24 + n)) := by
  refine ⟨ten, List.mem_singleton_self _, ?_⟩
  rcases h with rfl | rfl
  · exact ⟨rfl, by decide, by rw [SameLeading]; decide⟩
  · exact ⟨rfl, by decide, by rw [SameLeading]; decide⟩

def proxy : List Char :=
  ['1', '0', '.', '0', '.', '0', '.', '4']

theorem proxy_behind : Behind [ten] proxy := by
  intro part hpart
  rw [splitAt_single (by decide), List.mem_singleton] at hpart
  rw [hpart]
  exact ⟨.v4 (10 * 2 ^ 24 + 4), by decide, ten_proxied (Or.inl rfl)⟩

/-- A hop of the client's network, `203.0.113.9`. -/
def outer : List Char :=
  ['2', '0', '3', '.', '0', '.', '1', '1', '3', '.', '9']

theorem outer_read : parseHop (trimmed outer) = some (.v4 3405803785) := by
  decide

theorem outer_apart : ¬Proxied [ten] (.v4 3405803785) := by
  rintro ⟨c, hc, -, -, hsame⟩
  rw [List.mem_singleton.mp hc] at hsame
  exact absurd (hsame 0 (by decide)) (by decide)

theorem outer_independent :
    clientIp (some (.v4 (10 * 2 ^ 24 + 5))) (some (outer ++ ',' :: (outer ++ ',' :: proxy))) [ten] =
      clientIp (some (.v4 (10 * 2 ^ 24 + 5))) (some (proxy ++ ',' :: (outer ++ ',' :: proxy)))
        [ten] := by
  have hapart : ∀ ip, parseHop (trimmed outer) = some ip → ¬Proxied [ten] ip := by
    intro ip hip
    rw [outer_read, Option.some.injEq] at hip
    rw [← hip]
    exact outer_apart
  exact ((client_ip_independent ten_trusted).1 _ (ten_proxied (Or.inr rfl)) outer proxy (by decide)
    proxy_behind hapart).mpr (by rw [outer_read]; rfl) outer proxy

/-- A proxy's word for a hop it does not name. -/
def unnamed : List Char :=
  ['u', 'n', 'k', 'n', 'o', 'w', 'n']

/-- Past a hop that cannot be read the client names its own address. -/
theorem client_chooses : (∀ c ∈ [ten], c.Accepted) ∧ Proxied [ten] (.v4 (10 * 2 ^ 24 + 5)) ∧
    ',' ∉ unnamed ∧ Behind [ten] proxy ∧
    (∀ ip, parseHop (trimmed unnamed) = some ip → ¬Proxied [ten] ip) ∧
    ∃ h h',
      clientIp (some (.v4 (10 * 2 ^ 24 + 5))) (some (h ++ ',' :: (unnamed ++ ',' :: proxy))) [ten] ≠
      clientIp (some (.v4 (10 * 2 ^ 24 + 5))) (some (h' ++ ',' :: (unnamed ++ ',' :: proxy))) [ten] := by
  refine ⟨ten_trusted, ten_proxied (Or.inr rfl), by decide, proxy_behind, fun ip hip => ?_,
    ['1', '.', '1', '.', '1', '.', '1'], ['2', '.', '2', '.', '2', '.', '2'], by decide⟩
  have hunread : parseHop (trimmed unnamed) = none := by decide
  rw [hunread] at hip
  simp at hip

end Sample

end Proxies

end Net

end LocalSpace
