import Mathlib.Data.List.Induction
import LocalSpace.Library.Listings
import LocalSpace.Host

/-!
# The egress gateway

`gateway.rs`: whether a URL may be fetched is decided from its host, the configuration and what has
been approved and spent (`check`); then the request goes out. What is spent is counted when an
answer has been read. The HTTP client follows redirects, a bounded number of them, and nobody is
asked about where they lead.
-/

namespace LocalSpace

namespace Net

/-! ### Addresses -/

/-- An address as a number. -/
inductive Ip where
  | v4 (n : Nat)
  | v6 (n : Nat)
  deriving DecidableEq

/-- `str::split_once` at a text. -/
@[grind =]
def splitOnce (sep : List Char) : List Char → Option (List Char × List Char)
  | [] => if sep = [] then some ([], []) else none
  | c :: l =>
    if sep.isPrefixOf (c :: l) then some ([], (c :: l).drop sep.length)
    else (splitOnce sep l).map fun p => (c :: p.1, p.2)

/-- `str::split` at a character. -/
def splitAt (sep : Char) : List Char → List (List Char)
  | [] => [[]]
  | c :: l =>
    if c = sep then [] :: splitAt sep l
    else match splitAt sep l with
      | [] => [[c]]
      | p :: ps => (c :: p) :: ps

/-- What stands before the first separator. -/
@[grind =]
def before (sep : Char) (l : List Char) : List Char :=
  l.takeWhile (· ≠ sep)

/-- What stands after the last separator. -/
def afterLast (sep : Char) (l : List Char) : List Char :=
  (l.reverse.takeWhile (· ≠ sep)).reverse

def hexValue (c : Char) : Option Nat :=
  if c.isDigit then some (c.toNat - 48)
  else if 'a' ≤ c ∧ c ≤ 'f' then some (c.toNat - 87)
  else if 'A' ≤ c ∧ c ≤ 'F' then some (c.toNat - 55)
  else none

/-- One part of an IPv4 address: up to three digits, none before it that is 0. -/
def parseOctet (l : List Char) : Option Nat :=
  if l.isEmpty ∨ l.length > 3 ∨ !l.all Char.isDigit ∨ l.head? = some '0' ∧ l.length > 1 then none
  else (some (l.foldl (fun n c => n * 10 + (c.toNat - 48)) 0)).filter (· ≤ 255)

def parseV4 (l : List Char) : Option Nat :=
  match (splitAt '.' l).mapM parseOctet with
  | some [a, b, c, d] => some (((a * 256 + b) * 256 + c) * 256 + d)
  | _ => none

/-- A group of an IPv6 address: up to four hexadecimal digits. -/
def parseGroup (l : List Char) : Option Nat :=
  if l.isEmpty ∨ l.length > 4 then none
  else (l.mapM hexValue).map fun ds => ds.foldl (fun n d => n * 16 + d) 0

/-- Groups between colons; the last may be an IPv4 address where it may stand for two. -/
def parseGroups (last : Bool) : List (List Char) → Option (List Nat)
  | [] => some []
  | [l] =>
    match parseGroup l with
    | some n => some [n]
    | none => if last then (parseV4 l).map fun n => [n / 65536, n % 65536] else none
  | l :: ls => do return (← parseGroup l) :: (← parseGroups last ls)

def groupsValue (gs : List Nat) : Nat :=
  gs.foldl (fun n g => n * 65536 + g) 0

/-- The groups on one side of `::`. -/
def parseSide (last : Bool) (l : List Char) : Option (List Nat) :=
  if l.isEmpty then some [] else parseGroups last (splitAt ':' l)

def parseV6 (l : List Char) : Option Nat :=
  match splitOnce [':', ':'] l with
  | none => (parseSide true l).bind fun gs =>
      if gs.length = 8 then some (groupsValue gs) else none
  | some (head, tail) => do
      let hs ← parseSide false head
      let ts ← parseSide true tail
      if hs.length + ts.length ≤ 7 then
        return groupsValue (hs ++ List.replicate (8 - hs.length - ts.length) 0 ++ ts)
      else none

/-- `str::parse::<IpAddr>`. -/
def parseIp (l : List Char) : Option Ip :=
  match parseV4 l with
  | some n => some (.v4 n)
  | none => (parseV6 l).map .v6

/-- An IPv4 address written as IPv6 is the IPv4 one. -/
@[grind =]
def plain : Ip → Ip
  | .v6 n => if n / 2 ^ 32 = 0xFFFF then .v4 (n % 2 ^ 32) else .v6 n
  | a => a

def unbracket (l : List Char) : List Char :=
  match l with
  | '[' :: inside => if inside.getLast? = some ']' then inside.dropLast else l
  | _ => l

/-- Whether an address is inside `network/bits`. -/
def inRange (address : Ip) (network bits : List Char) : Bool :=
  match parseIp (unbracket network), parseU32 (String.ofList bits) with
  | some network, some bits =>
    match address, plain network with
    | .v4 a, .v4 n => bits ≤ 32 ∧ a / 2 ^ (32 - bits) = n / 2 ^ (32 - bits)
    | .v6 a, .v6 n => bits ≤ 128 ∧ a / 2 ^ (128 - bits) = n / 2 ^ (128 - bits)
    | _, _ => false
  | _, _ => false

def lower (l : List Char) : List Char :=
  l.map Char.toLower

/-- Wildcards, address ranges and names. -/
def matchesAny (host : String) (patterns : List String) : Bool :=
  let host := lower (unbracket host.toList)
  let address := (parseIp host).map plain
  patterns.any fun p =>
    let p := lower (trim p).toList
    match p with
    | '*' :: '.' :: suffix => host = suffix ∨ ('.' :: suffix).isSuffixOf host
    | p =>
      match splitOnce ['/'] p with
      | some (network, bits) => address.any fun a => inRange a network bits
      | none => host = unbracket p

/-! ### URLs -/

/-- The authority of a URL: what stands between `://` and the first of `/`, `?` and `#`. -/
def authority (rest : List Char) : List Char :=
  rest.takeWhile fun c => c ≠ '/' ∧ c ≠ '?' ∧ c ≠ '#'

def hostOf (url : String) : Option String :=
  (splitOnce [':', '/', '/'] url.toList).bind fun parts =>
    let host := match afterLast '@' (authority parts.2) with
      | '[' :: inside => before ']' inside
      | host => before ':' host
    if host.isEmpty then none else some (String.ofList (lower host))

def tracking : List String :=
  ["utm_source", "utm_medium", "utm_campaign", "utm_term", "utm_content", "gclid", "fbclid",
    "mc_cid", "mc_eid", "ref", "ref_src"]

/-- The pairs of a query that are kept. -/
def keptPairs (query : List Char) : List (List Char) :=
  (splitAt '&' query).filter fun pair =>
    String.ofList (before '=' pair) ∉ tracking ∧ !pair.isEmpty

@[grind =]
def stripTracking (url : String) : String :=
  match splitOnce ['?'] url.toList with
  | none => url
  | some (base, query) =>
    let (query, fragment) := match splitOnce ['#'] query with
      | some (q, f) => (q, some f)
      | none => (query, none)
    let kept := keptPairs query
    String.ofList (base ++ (if kept.isEmpty then [] else '?' :: ['&'].intercalate kept) ++
      (match fragment with
        | some f => '#' :: f
        | none => []))

def urlencode (s : String) : String :=
  let hex (n : Nat) : Char := (Nat.digitChar n).toUpper
  String.ofList (s.toUTF8.toList.flatMap fun b =>
    let c := Char.ofNat b.toNat
    if b.toNat < 128 ∧ (c.isAlphanum ∨ c ∈ ['-', '_', '.', '~']) then [c]
    else if c = ' ' then ['+']
    else ['%', hex (b.toNat / 16), hex (b.toNat % 16)])

/-! ### The gateway -/

deriving instance DecidableEq for Egress

structure Config where
  mode : NetworkMode
  allowlist : List String
  blocklist : List String
  intranet : List String
  searchUrl : Option String
  maxRequests : Nat
  maxBytes : Nat

/-- A request as it is logged: its URL, whether it was answered, and its bytes. -/
structure Logged where
  url : String
  ok : Bool
  bytes : Nat

structure Gateway where
  config : Config
  approved : List String
  requests : Nat
  bytes : Nat
  log : List Logged

@[grind =]
def Gateway.new (config : Config) : Gateway :=
  ⟨config, [], 0, 0, []⟩

namespace Gateway

variable (g : Gateway)

def approveDomain (domain : String) : Gateway :=
  { g with approved := String.ofList (lower domain.toList) :: g.approved }

/-- What is decided of a host. -/
def decideHost (host : String) : Egress :=
  if g.config.mode = .airgapped ∧ !matchesAny host g.config.intranet then
    .denied "this environment is airgapped; no egress is possible"
  else if matchesAny host g.config.blocklist then .denied s!"`{host}` is on the blocklist"
  else if !g.config.allowlist.isEmpty ∧ !matchesAny host g.config.allowlist ∧
      !matchesAny host g.config.intranet then
    .denied s!"`{host}` is not on the domain allowlist"
  else if g.config.maxRequests ≤ g.requests then .denied "this session's request quota is spent"
  else if g.config.maxBytes ≤ g.bytes then .denied "this session's byte quota is spent"
  else match g.config.mode with
    | .airgapped => .allowed
    | .online => .allowed
    | .ask => if host ∈ g.approved then .allowed else .needsApproval host

def check (url : String) : Egress :=
  match hostOf url with
  | none => .denied s!"`{url}` is not a fetchable URL"
  | some host => g.decideHost host

end Gateway

/-- What comes of a request: an answer with its text, an answer whose text cannot be read, or an
error, the request sent or not. -/
inductive Outcome where
  | answered (body : String)
  | unread (why : String)
  | failed (sent : Bool) (why : String)

@[grind =]
def Outcome.sent : Outcome → Bool
  | answered _ => true
  | unread _ => true
  | failed sent _ => sent

namespace Gateway

variable (g : Gateway)

/-- `Gateway::fetch`: what it answers, and whether a request went out, and where. -/
@[grind =]
def fetch (url : String) (outcome : Outcome) : Except String String × Gateway × Option String :=
  match g.check url with
  | .needsApproval d => (.error s!"`{d}` has not been approved for this session", g, none)
  | .denied why => (.error why, g, none)
  | .allowed =>
    let clean := stripTracking url
    let sent := if outcome.sent then some clean else none
    match outcome with
    | .failed _ why => (.error why, { g with log := g.log ++ [⟨clean, false, 0⟩] }, sent)
    | .unread why => (.error why, g, sent)
    | .answered body =>
      (.ok body, { g with
        requests := g.requests + 1
        bytes := g.bytes + body.utf8ByteSize
        log := g.log ++ [⟨clean, true, body.utf8ByteSize⟩] }, sent)

/-- The URL a search asks. -/
def searchTarget (base query : String) (site : Option String) : String :=
  let q := match site with
    | some site => s!"{query} site:{site}"
    | none => query
  String.ofList ((base.toList.reverse.dropWhile (· = '/')).reverse) ++
    "/search?format=json&q=" ++ urlencode q

/-- `Gateway::search`. -/
def search (query : String) (site : Option String) (outcome : Outcome) :
    Except String String × Gateway × Option String :=
  match g.config.searchUrl with
  | none => (.error "no search backend is configured for this environment", g, none)
  | some base =>
    let url := searchTarget base query site
    match g.check url with
    | .denied why => (.error why, g, none)
    | _ =>
      let sent := if outcome.sent then some url else none
      match outcome with
      | .failed _ why => (.error why, g, sent)
      | .unread why => (.error why, g, sent)
      | .answered body => (.ok body, { g with requests := g.requests + 1 }, sent)

end Gateway

/-! ### The session's quota -/

inductive Call where
  | approve (domain : String)
  | fetch (url : String) (outcome : Outcome)
  | search (query : String) (site : Option String) (outcome : Outcome)

/-- A gateway with the requests that went out, oldest first. -/
structure Session where
  gateway : Gateway
  sent : List String

namespace Call

/-- The gateway after a call, and where a request went. -/
def effect (g : Gateway) : Call → Gateway × Option String
  | approve domain => (g.approveDomain domain, none)
  | fetch url outcome => (g.fetch url outcome).2
  | search query site outcome => (g.search query site outcome).2

@[grind =]
def apply (s : Session) (c : Call) : Session :=
  let after := c.effect s.gateway
  ⟨after.1, s.sent ++ after.2.toList⟩

/-- What is asked of a call whose request goes out: it is no search, what a fetch is answered can
be read, and once a request has failed there is room for one more. -/
def Meets (s : Session) : Call → Prop
  | approve _ => True
  | fetch url outcome => s.gateway.check url = .allowed → outcome.sent = true →
      (∀ why, outcome ≠ .unread why) ∧
        (s.gateway.requests = s.sent.length ∨ s.sent.length < s.gateway.config.maxRequests)
  | search query site outcome => outcome.sent = true → ∀ base ∈ s.gateway.config.searchUrl,
      ∃ why, s.gateway.check (Gateway.searchTarget base query site) = .denied why

end Call

namespace Session

/-- The quota holds, and every request is logged. -/
structure Kept (s : Session) : Prop where
  quota : s.sent.length ≤ s.gateway.config.maxRequests
  logged : s.sent.Sublist (s.gateway.log.map Logged.url)

@[grind =]
def start (config : Config) : Session :=
  ⟨.new config, []⟩

@[grind =]
def run (config : Config) (calls : List Call) : Session :=
  calls.foldl Call.apply (start config)

end Session

section Quota

variable {g : Gateway} {s : Session} {c : Call} {url : String} {outcome : Outcome}

theorem decideHost_allowed {host : String} (h : g.decideHost host = .allowed) :
    g.requests < g.config.maxRequests := by
  rw [Gateway.decideHost] at h
  split at h
  · cases h
  · split at h
    · cases h
    · split at h
      · cases h
      · split at h
        · cases h
        · next hspent => exact not_le.mp hspent

theorem check_allowed (h : g.check url = .allowed) :
    ∃ host, hostOf url = some host ∧ g.decideHost host = .allowed := by
  rw [Gateway.check] at h
  split at h
  · cases h
  · next host hhost => exact ⟨host, hhost, h⟩

/-- **What a fetch does** to the gateway: nothing where nothing goes out; else what goes out is
logged where it fails, logged and counted where it is read. -/
theorem fetch_cases (g : Gateway) (url : String) (outcome : Outcome) :
    ((g.fetch url outcome).2 = (g, none)) ∨
    (∃ why, g.check url = .allowed ∧ outcome = .unread why ∧
      (g.fetch url outcome).2 = (g, some (stripTracking url))) ∨
    (∃ sent why, g.check url = .allowed ∧ outcome = .failed sent why ∧
      (g.fetch url outcome).2 = ({ g with log := g.log ++ [⟨stripTracking url, false, 0⟩] },
        if sent then some (stripTracking url) else none)) ∨
    ∃ body, g.check url = .allowed ∧ outcome = .answered body ∧
      (g.fetch url outcome).2 = ({ g with
        requests := g.requests + 1
        bytes := g.bytes + body.utf8ByteSize
        log := g.log ++ [⟨stripTracking url, true, body.utf8ByteSize⟩] },
        some (stripTracking url)) := by
  rw [Gateway.fetch]
  cases hcheck : g.check url with
  | needsApproval d => exact .inl rfl
  | denied why => exact .inl rfl
  | allowed =>
    cases outcome with
    | failed sent why => exact .inr (.inr (.inl ⟨sent, why, rfl, rfl, rfl⟩))
    | unread why => exact .inr (.inl ⟨why, rfl, rfl, rfl⟩)
    | answered body => exact .inr (.inr (.inr ⟨body, rfl, rfl, rfl⟩))

/-- A search that meets its condition sends nothing, and changes nothing. -/
theorem search_unsent {query : String} {site : Option String}
    (h : (Call.search query site outcome).Meets s) :
    (s.gateway.search query site outcome).2 = (s.gateway, none) := by
  rw [Gateway.search]
  cases hbase : s.gateway.config.searchUrl with
  | none => rfl
  | some base =>
    dsimp only
    cases hsent : outcome.sent with
    | true =>
      obtain ⟨why, hwhy⟩ := h hsent base hbase
      rw [hwhy]
    | false =>
      cases outcome with
      | answered body => cases hsent
      | unread why => cases hsent
      | failed sent why =>
        cases s.gateway.check (Gateway.searchTarget base query site) with
        | allowed => rfl
        | needsApproval d => rfl
        | denied why => rfl

/-- The invariant: no more is counted than went out. -/
structure Session.Good (s : Session) : Prop extends s.Kept where
  counted : s.gateway.requests ≤ s.sent.length

/-- Where nothing has failed, what is counted is what went out. -/
theorem room_of_meets (hcheck : s.gateway.check url = .allowed)
    (h : s.gateway.requests = s.sent.length ∨ s.sent.length < s.gateway.config.maxRequests) :
    s.sent.length < s.gateway.config.maxRequests := by
  obtain ⟨host, -, hdecide⟩ := check_allowed hcheck
  obtain hequal | hless := h
  · exact hequal ▸ decideHost_allowed hdecide
  · exact hless

/-- **One call** keeps the quota and the log, where it meets its condition. -/
theorem Session.Good.step (h : s.Good) (hmeets : c.Meets s) : (c.apply s).Good := by
  have hsame : c.effect s.gateway = (s.gateway, none) → (c.apply s).Good := by
    intro heq
    rw [Call.apply, heq]
    dsimp only
    rw [Option.toList_none, List.append_nil]
    exact h
  cases c with
  | approve domain =>
    refine ⟨⟨?_, ?_⟩, ?_⟩
    · rw [Call.apply]
      dsimp only [Call.effect]
      rw [Option.toList_none, List.append_nil]
      exact h.quota
    · rw [Call.apply]
      dsimp only [Call.effect]
      rw [Option.toList_none, List.append_nil]
      exact h.logged
    · rw [Call.apply]
      dsimp only [Call.effect]
      rw [Option.toList_none, List.append_nil]
      exact h.counted
  | search query site outcome => exact hsame (search_unsent hmeets)
  | fetch url outcome =>
    obtain heq | ⟨why, hcheck, rfl, heq⟩ | ⟨sent, why, hcheck, rfl, heq⟩ |
        ⟨body, hcheck, rfl, heq⟩ :=
      fetch_cases s.gateway url outcome
    · exact hsame heq
    · exact absurd rfl ((hmeets hcheck rfl).1 why)
    · rw [Call.apply, Call.effect, heq]
      cases sent with
      | false =>
        refine ⟨⟨?_, ?_⟩, ?_⟩
        · simpa using h.quota
        · simpa using h.logged.trans (List.sublist_append_left _ _)
        · simpa using h.counted
      | true =>
        have hroom := room_of_meets hcheck (hmeets hcheck rfl).2
        have hcounted := h.counted
        refine ⟨⟨?_, ?_⟩, ?_⟩
        · rw [if_pos rfl, Option.toList_some, List.length_append]
          exact hroom
        · simpa using h.logged.append (List.Sublist.refl [stripTracking url])
        · simp only [if_true, Option.toList_some, List.length_append, List.length_singleton]
          omega
    · have hroom := room_of_meets hcheck (hmeets hcheck rfl).2
      rw [Call.apply, Call.effect, heq]
      refine ⟨⟨?_, ?_⟩, ?_⟩
      · rw [Option.toList_some, List.length_append]
        exact hroom
      · simpa using h.logged.append (List.Sublist.refl [stripTracking url])
      · simpa using h.counted

/-- **The quota**: over every run of calls that all meet their condition, no more requests go out
than the configuration allows, and every one of them is logged. -/
theorem quota_holds {config : Config} {calls : List Call}
    (h : ∀ before c after, calls = before ++ c :: after → c.Meets (Session.run config before)) :
    (Session.run config calls).Kept := by
  have hgood : ∀ before after : List Call, calls = before ++ after →
      (Session.run config before).Good := by
    intro before
    induction before using List.reverseRecOn with
    | nil => exact fun _ _ => ⟨⟨Nat.zero_le _, List.nil_sublist _⟩, le_refl 0⟩
    | append_singleton before c ih =>
      intro after hsplit
      rw [List.append_assoc] at hsplit
      rw [Session.run, List.foldl_append]
      exact (ih _ hsplit).step (h before c after hsplit)
  exact (hgood calls [] (List.append_nil calls).symm).toKept

end Quota

/-- One request, for anywhere. -/
def once : Config :=
  ⟨.online, [], [], [], none, 1, 1⟩

/-- Three, for anywhere but one host. -/
def thrice : Config :=
  ⟨.online, [], ["away"], [], none, 3, 1⟩

/-- A page, a request that times out, one that is not let out, and another page. -/
def pages : List Call :=
  [.fetch "https://a.b/" (.answered "c"), .fetch "https://a.b/d" (.failed true "timeout"),
    .fetch "https://away/" (.answered "e"), .fetch "https://a.b/f" (.answered "g")]

theorem quota_holds_pages : (Session.run thrice pages).Kept := by
  refine quota_holds (Library.forall_split
    (P := fun before (c : Call) => c.Meets (Session.run thrice before)) ?_)
  have hdenied : (Session.run thrice (pages.take 2)).gateway.check "https://away/" ≠ .allowed := by
    decide +kernel
  have hroom : (Session.run thrice (pages.take 3)).sent.length < 3 := by decide +kernel
  rintro ⟨k, hk⟩
  match k with
  | 0 | 1 => exact fun _ _ => ⟨fun _ h => (nomatch h), .inl rfl⟩
  | 2 => exact fun hallowed => absurd hallowed hdenied
  | 3 => exact fun _ _ => ⟨fun _ h => (nomatch h), .inr hroom⟩

/-- Two requests time out, and one was allowed. -/
theorem timeouts_uncounted :
    ¬(Session.run once [.fetch "https://a.b/" (.failed true "timeout"),
      .fetch "https://a.b/" (.failed true "timeout")]).Kept := by
  intro h
  exact absurd h.quota (by decide +kernel)

/-! ### Redirects -/

/-- An HTTP client: the host that a URL's request goes to, where it is one the client can ask, and
how many redirects it follows. -/
structure Client where
  host : String → Option String
  maxRedirects : Nat

/-- What is relied on of the client: it asks URLs that begin with a scheme's letters and `://`, at
the host of their authority. -/
structure Client.Sound (C : Client) : Prop where
  reads : ∀ url host, C.host url = some host → hostOf url = some host ∧
    ∃ scheme rest, url.toList = scheme ++ ':' :: '/' :: '/' :: rest ∧
      ∀ c ∈ scheme, c.isAlpha = true

/-- What a server answers: it sends the client on, or not. -/
inductive Answer where
  | redirect (target : String)
  | other

section Redirects

variable (C : Client)

/-- The hosts that are contacted for a URL, as the servers answer one after another. -/
def follow : Nat → String → List Answer → List String
  | 0, url, _ => (C.host url).toList
  | n + 1, url, answers =>
    match C.host url with
    | none => []
    | some host =>
      host :: match answers with
        | .redirect target :: answers => follow n target answers
        | _ => []

/-- The hosts that are contacted during a fetch. -/
def contacted (g : Gateway) (url : String) (answers : List Answer) : List String :=
  match g.check url with
  | .allowed => follow C C.maxRedirects (stripTracking url) answers
  | _ => []

/-- The hosts that the servers send the client on to, one after another. -/
def sentOn : Nat → List Answer → List String
  | n + 1, .redirect target :: answers =>
    match C.host target with
    | none => []
    | some host => host :: sentOn n answers
  | _, _ => []

end Redirects

section Safety

variable {C : Client} {g : Gateway} {url host : String} {answers : List Answer}

theorem splitOnce_scheme {scheme rest : List Char} (h : ∀ c ∈ scheme, c ≠ ':') :
    splitOnce [':', '/', '/'] (scheme ++ ':' :: '/' :: '/' :: rest) = some (scheme, rest) := by
  induction scheme with
  | nil => rfl
  | cons c scheme ih =>
    have hc : (':' == c) = false := beq_eq_false_iff_ne.mpr (h c List.mem_cons_self).symm
    have hprefix : [':', '/', '/'].isPrefixOf (c :: (scheme ++ ':' :: '/' :: '/' :: rest)) =
        false := by
      rw [List.isPrefixOf, hc, Bool.false_and]
    rw [List.cons_append, splitOnce, hprefix, if_neg Bool.false_ne_true,
      ih fun d hd => h d (List.mem_cons_of_mem _ hd)]
    rfl

theorem splitOnce_eq_some {sep l a b : List Char} (h : splitOnce sep l = some (a, b)) :
    l = a ++ sep ++ b := by
  induction l generalizing a with
  | nil =>
    rw [splitOnce] at h
    split at h
    · next hsep =>
      cases h
      rw [hsep]
      rfl
    · cases h
  | cons c l ih =>
    rw [splitOnce] at h
    split at h
    · next hprefix =>
      cases h
      obtain ⟨rest, hrest⟩ := List.isPrefixOf_iff_prefix.mp hprefix
      rw [← hrest, List.drop_left]
      rfl
    · obtain ⟨⟨a', b'⟩, hsplit, heq⟩ := Option.map_eq_some_iff.mp h
      cases heq
      rw [ih hsplit]
      rfl

/-- What may follow an authority: nothing, or a query or a fragment. -/
def Follows (tail : List Char) : Prop :=
  ∀ c ∈ tail.head?, c = '?' ∨ c = '#'

/-- An authority does not depend on what follows it. -/
theorem authority_append {l tail : List Char} (h : Follows tail) :
    authority (l ++ tail) = authority l := by
  have htail : authority tail = [] := by
    cases tail with
    | nil => rfl
    | cons c tail =>
      obtain rfl | rfl := h c rfl
      · rfl
      · rfl
  rw [authority, authority, List.takeWhile_append]
  split
  · next hall =>
    rw [← authority, htail, List.append_nil]
    exact ((List.takeWhile_prefix _).eq_of_length hall).symm
  · rfl

/-- A scheme stands before what follows an authority. -/
theorem scheme_within {base tail scheme rest : List Char} (htail : Follows tail)
    (hscheme : ∀ c ∈ scheme, c.isAlpha = true)
    (h : base ++ tail = scheme ++ ':' :: '/' :: '/' :: rest) :
    ∃ r, base = scheme ++ ':' :: '/' :: '/' :: r ∧ rest = r ++ tail := by
  rw [List.append_cons, List.append_cons, List.append_cons] at h
  obtain ⟨r, hbase, hrest⟩ | ⟨r, hbase, hrest⟩ := List.append_eq_append_iff.mp h
  · cases r with
    | nil => exact ⟨[], by simpa using hbase.symm, hrest.symm⟩
    | cons c r =>
      have hc : c = '?' ∨ c = '#' := htail c (by rw [hrest]; rfl)
      have hmem : c ∈ scheme ++ [':'] ++ ['/'] ++ ['/'] := by
        rw [hbase]
        exact List.mem_append_right _ List.mem_cons_self
      rw [List.append_assoc, List.append_assoc, List.mem_append] at hmem
      obtain hmem | hmem := hmem
      · obtain rfl | rfl := hc
        · exact absurd (hscheme _ hmem) (by decide)
        · exact absurd (hscheme _ hmem) (by decide)
      · obtain rfl | rfl := hc
        · exact absurd hmem (by decide)
        · exact absurd hmem (by decide)
  · exact ⟨r, by simpa using hbase, hrest⟩

/-- The host of a URL is in its authority. -/
theorem hostOf_append {a b : String} {base s t : List Char} {scheme r : List Char}
    (hscheme : ∀ c ∈ scheme, c.isAlpha = true) (hbase : base = scheme ++ ':' :: '/' :: '/' :: r)
    (ha : a.toList = base ++ s) (hb : b.toList = base ++ t) (hs : Follows s) (ht : Follows t) :
    hostOf a = hostOf b := by
  have hcolon : ∀ c ∈ scheme, c ≠ ':' := by
    rintro c hc rfl
    exact absurd (hscheme _ hc) (by decide)
  have hsplit : ∀ end', splitOnce [':', '/', '/'] (base ++ end') = some (scheme, r ++ end') := by
    intro end'
    rw [hbase, List.append_assoc]
    exact splitOnce_scheme hcolon
  rw [hostOf, hostOf, ha, hb, hsplit, hsplit, Option.bind_some, Option.bind_some,
    authority_append hs, authority_append ht]

theorem follows_kept (kept : List (List Char)) (fragment : Option (List Char)) :
    Follows ((if kept.isEmpty then [] else '?' :: ['&'].intercalate kept) ++
      match fragment with
      | some f => '#' :: f
      | none => []) := by
  intro c hc
  cases kept with
  | cons pair kept =>
    cases hc
    exact .inl rfl
  | nil =>
    cases fragment with
    | some f =>
      cases hc
      exact .inr rfl
    | none => cases hc

/-- Tracking parameters stand after the authority. -/
theorem stripTracking_parts (url : String) : ∃ base s t, url.toList = base ++ s ∧
    (stripTracking url).toList = base ++ t ∧ Follows s ∧ Follows t := by
  rw [stripTracking]
  cases hsplit : splitOnce ['?'] url.toList with
  | none =>
    have hnil : Follows [] := fun c hc => nomatch hc
    exact ⟨url.toList, [], [], (List.append_nil _).symm, (List.append_nil _).symm, hnil, hnil⟩
  | some parts =>
    obtain ⟨base, query⟩ := parts
    refine ⟨base, '?' :: query, _, ?_, by rw [String.toList_ofList, List.append_assoc], ?_,
      follows_kept _ _⟩
    · rw [splitOnce_eq_some hsplit, List.append_assoc]
      rfl
    · intro c hc
      cases hc
      exact .inl rfl

/-- The host that is asked first is the one that was checked. -/
theorem host_clean (hC : C.Sound) (h : C.host (stripTracking url) = some host) :
    hostOf url = some host := by
  obtain ⟨hhost, scheme, rest, hclean, hscheme⟩ := hC.reads _ _ h
  obtain ⟨base, s, t, hurl, hparts, hs, ht⟩ := stripTracking_parts url
  obtain ⟨r, hbase, -⟩ := scheme_within ht hscheme (hparts.symm.trans hclean)
  rw [hostOf_append hscheme hbase hurl hparts hs ht, hhost]

theorem follow_none (h : C.host url = none) (n : Nat) : follow C n url answers = [] := by
  cases n with
  | zero => rw [follow, h, Option.toList_none]
  | succ n =>
    unfold follow
    rw [h]

/-- After the first host, those that the servers name. -/
theorem follow_eq (h : C.host url = some host) (n : Nat) :
    follow C n url answers = host :: sentOn C n answers := by
  induction n generalizing url host answers with
  | zero =>
    rw [follow, h]
    rfl
  | succ n ih =>
    unfold follow
    rw [h]
    cases answers with
    | nil => rfl
    | cons answer answers =>
      cases answer with
      | other => rfl
      | redirect target =>
        unfold sentOn
        cases htarget : C.host target with
        | none => exact congrArg _ (follow_none htarget n)
        | some next => exact congrArg _ (ih htarget)

/-- **Redirects**: the hosts that are contacted are all allowed exactly when those that the
servers send the client on to are. -/
theorem redirects_allowed (hC : C.Sound) :
    (∀ host ∈ contacted C g url answers, g.decideHost host = .allowed) ↔
      (g.check url = .allowed → (C.host (stripTracking url)).isSome →
        ∀ host ∈ sentOn C C.maxRedirects answers, g.decideHost host = .allowed) := by
  rw [contacted]
  cases hcheck : g.check url with
  | needsApproval d => exact ⟨fun _ h => (nomatch h), fun _ host hmem => (nomatch hmem)⟩
  | denied why => exact ⟨fun _ h => (nomatch h), fun _ host hmem => (nomatch hmem)⟩
  | allowed =>
    dsimp only
    cases hhost : C.host (stripTracking url) with
    | none =>
      rw [follow_none hhost]
      exact ⟨fun _ _ h => (nomatch h), fun _ host hmem => nomatch hmem⟩
    | some first =>
      have hfirst : g.decideHost first = .allowed := by
        obtain ⟨checked, hchecked, hallowed⟩ := check_allowed hcheck
        rw [host_clean hC hhost] at hchecked
        cases hchecked
        exact hallowed
      rw [follow_eq hhost]
      constructor
      · intro h _ _ host hmem
        exact h host (List.mem_cons_of_mem _ hmem)
      · intro h host hmem
        obtain rfl | hmem := List.mem_cons.mp hmem
        · exact hfirst
        · exact h rfl rfl host hmem

end Safety

/-- A client that follows up to ten redirects. -/
def http : Client where
  host url := (splitOnce [':', '/', '/'] url.toList).bind fun parts =>
    if parts.1.all Char.isAlpha then hostOf url else none
  maxRedirects := 10

theorem http_sound : http.Sound where
  reads url host h := by
    obtain ⟨⟨scheme, rest⟩, hsplit, hhost⟩ := Option.bind_eq_some_iff.mp h
    split at hhost
    · next hall =>
      refine ⟨hhost, scheme, rest, ?_, List.all_eq_true.mp hall⟩
      rw [splitOnce_eq_some hsplit, List.append_assoc]
      rfl
    · cases hhost

/-- Airgapped, but for a host of the intranet. -/
def intranetOnly : Gateway :=
  .new ⟨.airgapped, [], [], ["wiki"], none, 10, 10⟩

/-- The intranet's host sends the client on, to another page of its own. -/
theorem redirects_allowed_wiki :
    contacted http intranetOnly "http://wiki/" [.redirect "http://wiki/home", .other] =
        ["wiki", "wiki"] ∧
      ∀ host ∈ contacted http intranetOnly "http://wiki/" [.redirect "http://wiki/home", .other],
        intranetOnly.decideHost host = .allowed := by
  refine ⟨by decide +kernel, (redirects_allowed http_sound).mpr fun _ _ host hmem => ?_⟩
  have hsent : sentOn http http.maxRedirects [.redirect "http://wiki/home", .other] = ["wiki"] := by
    decide +kernel
  rw [hsent] at hmem
  rw [List.mem_singleton.mp hmem]
  decide +kernel

/-- The intranet's host sends the client out of it. -/
theorem redirects_unchecked : ¬∀ host ∈ contacted http intranetOnly "http://wiki/"
    [.redirect "http://away/", .other], intranetOnly.decideHost host = .allowed := by
  intro h
  exact absurd (h "away" (by decide +kernel)) (by decide +kernel)

end Net

end LocalSpace
