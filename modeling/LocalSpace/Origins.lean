import Mathlib
import LocalSpace.Manifests
import LocalSpace.Library.Words

/-!
# The origins of harness surfaces

`surfaces.rs`: the host a harness's views live on, the grants the shell opens them with, and what
a request to such a host is answered with. A harness's slug says which words its id has and no
more, so that the installed packages have origins of their own exactly where no two of their ids
have the same words, each has one, and the pattern of the hosts is one that a host in lower case
and without its port can have (`own_origins_iff`).
-/

namespace LocalSpace

namespace Origins

open Library Words
open Manifests (Manifest Location Inside surfaceFile isPackageId)

/-! ### Slugs and hosts -/

/-- `slug`, by one character. -/
def slugStep (out : List Char) (c : Char) : List Char :=
  if c.isAlphanum then out ++ [c.toLower]
  else if out.getLast? = some '-' then out
  else out ++ ['-']

/-- One label of a host name: lower case, nothing but letters, digits and hyphens. -/
def slug (harness : String) : String :=
  String.ofList (strip '-' (harness.toList.foldl slugStep []))

/-- `str::split_once`. -/
@[grind =]
def splitOnce (sep : List Char) : List Char → Option (List Char × List Char)
  | [] => if sep = [] then some ([], []) else none
  | c :: cs =>
    if sep <+: c :: cs then some ([], (c :: cs).drop sep.length)
    else (splitOnce sep cs).map fun parts => (c :: parts.1, parts.2)

/-- `str::replace`, with so many characters of a match still to pass. -/
@[grind =]
def replaceFrom (sep new : List Char) : Nat → List Char → List Char
  | _, [] => []
  | n + 1, _ :: cs => replaceFrom sep new n cs
  | 0, c :: cs =>
    if sep <+: c :: cs then new ++ replaceFrom sep new (sep.length - 1) cs
    else c :: replaceFrom sep new 0 cs

/-- Where a pattern of hosts has the slug. -/
def slot : List Char := "{slug}".toList

/-- The host a slug lives on. -/
def hostFor (pattern slug : String) : String :=
  String.ofList (replaceFrom slot slug.toList 0 pattern.toList)

def stripPrefix (pre text : List Char) : Option (List Char) :=
  if pre <+: text then some (text.drop pre.length) else none

def stripSuffix (suf text : List Char) : Option (List Char) :=
  if suf <:+ text then some (text.take (text.length - suf.length)) else none

/-- A letter of a host's label. -/
def isLabelChar (c : Char) : Bool :=
  c.isAlphanum || c = '-'

/-- A request's host, without its port and in lower case. -/
def hostName (host : String) : List Char :=
  (host.toList.takeWhile (· ≠ ':')).map Char.toLower

/-- The slug a request's `Host` names, when the host fits the pattern. -/
def slugOf (pattern host : String) : Option String := do
  let (pre, suf) ← splitOnce slot pattern.toList
  let rest ← stripPrefix pre (hostName host)
  let slug ← stripSuffix suf rest
  if slug.isEmpty || !slug.all isLabelChar then none else some (String.ofList slug)

def isHexDigit (c : Char) : Bool :=
  c.isDigit || ('a' ≤ c && c ≤ 'f') || ('A' ≤ c && c ≤ 'F')

/-- `/s/<token>/<rest>` split into the token and the rest, or nothing. -/
def splitGrantPath (path : String) : Option (String × String) := do
  let rest ← stripPrefix "/s/".toList path.toList
  let (token, rest) ← splitOnce ['/'] rest
  if token.isEmpty || !token.all isHexDigit then none
  else some (String.ofList token, String.ofList rest)

/-! ### Grants, and what is answered -/

/-- What a surface was opened with. -/
structure Grant where
  user : String
  harness : String
  view : String
  slug : String
  shellOrigin : String
  minted : Nat

abbrev Grants := List (String × Grant)

/-- A package as it is installed. -/
structure Package where
  manifest : Manifest
  dir : Location

abbrev Package.id (p : Package) : String :=
  p.manifest.id

/-- What the answers depend on besides the grants. -/
structure Site where
  pattern : String
  packages : List Package
  found : Location → Bool
  isFile : Location → Bool
  /-- The libraries the shell provides. -/
  provided : String → Bool

/-- What a request is answered with. -/
inductive Answer where
  /-- not a harness's host: the API or the shell's bundle -/
  | next
  | notAllowed
  | unauthorised
  | page (view : String)
  | sdk
  | library (name : String)
  | notFound (message : String)
  | file (package : Package) (place : Location)

section Serving

variable (site : Site)

/-- `GetSurfaceFile`. -/
def getSurfaceFile (harness view path : String) : Except String (Package × Location) :=
  match site.packages.find? fun p => p.id = harness with
  | none => .error s!"no harness `{harness}`"
  | some p => (surfaceFile p.manifest p.dir site.found site.isFile view path).map (p, ·)

/-- `MAX_GRANTS`. -/
def maxGrants : Nat := 512

/-- The grants that stay when one more is minted: beyond the bound, the oldest go. -/
def makeRoom (grants : Grants) : Grants :=
  if maxGrants ≤ grants.length then
    let byAge := grants.mergeSort fun a b => a.2.minted ≤ b.2.minted
    let old := (byAge.take (grants.length + 1 - maxGrants)).map Prod.fst
    grants.filter fun entry => entry.1 ∉ old
  else grants

/-- A view the shell asks to open. -/
structure Opening where
  user : String
  harness : String
  view : String
  shellOrigin : String
  token : String
  minted : Nat

/-- `open`: the grant a view is opened with, where it is a web surface. -/
@[grind =]
def openSurface (grants : Grants) (o : Opening) : Grants :=
  match getSurfaceFile site o.harness o.view "index.js" with
  | .error _ => grants
  | .ok _ =>
    (o.token, ⟨o.user, o.harness, o.view, slug o.harness, o.shellOrigin, o.minted⟩) ::
      (makeRoom grants).filter fun entry => entry.1 ≠ o.token

/-- A library's name: letters, digits, dots, dashes and underscores, no dot first. -/
def isPlainName (name : List Char) : Bool :=
  !name.isEmpty && name.all (fun c => c.isAlphanum || c = '.' || c = '-' || c = '_') &&
    name.head? ≠ some '.'

/-- Where the bridge's SDK is. -/
def sdkPath : String := "_localspace/sdk.js"

/-- Where the libraries of the shell are. -/
def sharedDir : List Char := "_localspace/".toList

/-- What is behind a grant. -/
def answerOf (grant : Grant) (rest : String) : Answer :=
  if rest = "" then .page grant.view
  else if rest = sdkPath then .sdk
  else match stripPrefix sharedDir rest.toList with
    | some name =>
      if isPlainName name && site.provided (String.ofList name) then .library (String.ofList name)
      else .notFound s!"the shell does not provide `{String.ofList name}`"
    | none =>
      match getSurfaceFile site grant.harness grant.view rest with
      | .ok (package, place) => .file package place
      | .error message => .notFound message

/-- `serve`: a request to a harness's host. -/
@[grind =]
def serve (grants : Grants) (hostSlug method path : String) : Answer :=
  if method ≠ "GET" ∧ method ≠ "HEAD" then .notAllowed
  else match splitGrantPath path with
    | none => .unauthorised
    | some (token, rest) =>
      match (grants.lookup token).filter fun g => g.slug = hostSlug with
      | none => .unauthorised
      | some grant => answerOf site grant rest

/-- `route`: a request whose host is a harness's is answered here. -/
def route (grants : Grants) (host method path : String) : Answer :=
  match slugOf site.pattern host with
  | some hostSlug => serve site grants hostSlug method path
  | none => .next

/-- The grants after the shell has opened some views. -/
@[grind =]
def opened (openings : List Opening) : Grants :=
  openings.foldl (openSurface site) []

end Serving

/-! ### Origins of their own -/

/-- A host, in some letter case, with a port or none. -/
def Spells (host name : String) : Prop :=
  ∃ letters, letters.map Char.toLower = name.toList.map Char.toLower ∧
    (host.toList = letters ∨ ∃ port, (∀ c ∈ port, c.isDigit = true) ∧
      host.toList = letters ++ ':' :: port)

/-- A pattern has the slug's place once. -/
def Once (pattern : String) : Prop :=
  ∃ pre suf, splitOnce slot pattern.toList = some (pre, suf) ∧ splitOnce slot suf = none

/-- The host of a package's surfaces. -/
def Site.hostOf (site : Site) (p : Package) : String :=
  hostFor site.pattern (slug p.id)

/-- Every harness has an origin of its own. -/
structure OwnOrigins (site : Site) : Prop where
  distinct : ∀ p ∈ site.packages, ∀ q ∈ site.packages, p.id ≠ q.id → site.hostOf p ≠ site.hostOf q
  back : ∀ p ∈ site.packages, ∀ host, Spells host (site.hostOf p) →
    slugOf site.pattern host = some (slug p.id)
  alone : ∀ p ∈ site.packages, ∀ host, Spells host (site.hostOf p) → ∀ openings method path,
    route site (opened site openings) host method path ≠ .next ∧ ∀ q place,
      route site (opened site openings) host method path = .file q place →
        q.id = p.id ∧ Inside q.dir place

/-- The words of a package's id: its runs of letters and digits. -/
def wordsOf (id : String) : List (List Char) :=
  words Char.isAlphanum id.toList

/-- A pattern that a host in lower case and without its port can fit. -/
def Fits (pattern : String) : Prop :=
  ∀ c ∈ pattern.toList, c ≠ ':' ∧ c.isUpper = false

/-! ### Slugs -/

section Slugs

variable {id id' : String} {c : Char}

theorem toNat_of_isUpper (h : c.isUpper = true) : 65 ≤ c.toNat ∧ c.toNat ≤ 90 := by
  simpa [Char.isUpper, UInt32.le_iff_toNat_le] using h

theorem isDigit_of_lt (h : 57 < c.toNat) : c.isDigit = false := by
  refine Bool.eq_false_iff.mpr fun hdigit => ?_
  have hle : 48 ≤ c.toNat ∧ c.toNat ≤ 57 := by
    simpa [Char.isDigit, UInt32.le_iff_toNat_le] using hdigit
  omega

theorem isAlphanum_toLower : c.toLower.isAlphanum = c.isAlphanum := by
  have hdigit : c.toLower.isDigit = c.isDigit := by
    by_cases hup : c.isUpper = true
    · obtain ⟨hlow, hhigh⟩ := toNat_of_isUpper hup
      have hnat : (Char.ofNat (c.toNat + 32)).toNat = c.toNat + 32 := by
        rw [Char.ofNat, dif_pos (.inl (by omega))]
        rfl
      rw [Char.toLower_eq_of_isUpper hup, isDigit_of_lt (by omega), isDigit_of_lt (by omega)]
    · rw [Char.toLower_eq_of_not_isUpper hup]
  rw [Char.isAlphanum, Char.isAlphanum, Char.isAlpha_toLower_eq_isAlpha, hdigit]

theorem ne_dash_of_isAlphanum (h : c.isAlphanum = true) : c ≠ '-' := by
  rintro rfl
  cases h

theorem slugStep_foldl (out text : List Char) : text.foldl slugStep out =
    out ++ collapse Char.isAlphanum '-' (out.getLast? = some '-') (text.map Char.toLower) := by
  induction text generalizing out with
  | nil => rw [List.map_nil, collapse, List.append_nil, List.foldl_nil]
  | cons c cs ih =>
    rw [List.foldl_cons, List.map_cons, collapse, ih, slugStep, isAlphanum_toLower]
    by_cases hc : c.isAlphanum = true
    · have hne : c.toLower ≠ '-' := ne_dash_of_isAlphanum (isAlphanum_toLower.trans hc)
      rw [if_pos hc, if_pos hc, List.getLast?_concat, List.append_assoc, List.singleton_append,
        decide_eq_false (by simpa using hne)]
    · rw [if_neg hc, if_neg hc]
      by_cases hdash : out.getLast? = some '-'
      · rw [if_pos hdash, decide_eq_true hdash, if_pos rfl]
      · rw [if_neg hdash, decide_eq_false hdash, if_neg Bool.false_ne_true, List.getLast?_concat,
          List.append_assoc, List.singleton_append, decide_eq_true rfl]

theorem toList_slug : (slug id).toList =
    strip '-' (collapse Char.isAlphanum '-' false (id.toList.map Char.toLower)) := by
  rw [slug, String.toList_ofList, slugStep_foldl, List.nil_append]
  rfl

/-- A slug is one label of a host, in lower case. -/
theorem of_mem_slug (h : c ∈ (slug id).toList) : isLabelChar c = true ∧ c.isUpper = false := by
  rw [toList_slug] at h
  obtain ⟨hmem, hc⟩ | rfl := mem_strip_collapse h
  · obtain ⟨d, -, rfl⟩ := List.mem_map.mp hmem
    exact ⟨by rw [isLabelChar, hc, Bool.true_or], Char.isUpper_toLower_eq_false d⟩
  · exact ⟨rfl, rfl⟩

/-- The letters of a package's id are in lower case. -/
theorem map_toLower_id (h : isPackageId id = true) : id.toList.map Char.toLower = id.toList := by
  have hchars : ∀ c ∈ id.toList, ¬c.isUpper = true := by
    intro c hc hup
    rw [isPackageId, Bool.and_eq_true, List.all_eq_true] at h
    by_cases hdot : c = '.'
    · rw [hdot] at hup
      cases hup
    · have hno : (fun a : Char => decide (a = '.')) c = false := decide_eq_false hdot
      have hparts : ∃ part ∈ Manifests.splitAtChar '.' id.toList, c ∈ part :=
        Paths.exists_mem_splitOnP hc hno
      obtain ⟨part, hpart, hmem⟩ := hparts
      have hall := h.2 part hpart
      rw [Bool.and_eq_true, List.all_eq_true] at hall
      have hkind := hall.2 c hmem
      simp only [Bool.or_eq_true, decide_eq_true_iff] at hkind
      obtain (hlower | hdigit) | rfl := hkind
      · exact Char.not_isUpper_of_isLower hlower hup
      · have hlow := (toNat_of_isUpper hup).1
        rw [isDigit_of_lt (by omega)] at hdigit
        cases hdigit
      · cases hup
  rw [List.map_congr_left fun c hc => Char.toLower_eq_of_not_isUpper (hchars c hc), List.map_id']

/-- The slug of a package says which words its id has, and no more. -/
theorem slug_eq_iff (h : isPackageId id = true) (h' : isPackageId id' = true) :
    slug id = slug id' ↔ wordsOf id = wordsOf id' := by
  rw [← String.toList_inj, toList_slug, toList_slug, map_toLower_id h, map_toLower_id h']
  exact strip_collapse_iff rfl

theorem slug_eq_empty (h : isPackageId id = true) : (slug id).toList = [] ↔ wordsOf id = [] := by
  rw [toList_slug, map_toLower_id h]
  exact strip_collapse_eq_nil rfl

end Slugs

/-! ### Hosts -/

section Hosts

variable {sep new pre suf text rest l a b : List Char} {pattern host name s : String} {c : Char}

theorem stripPrefix_eq_some : stripPrefix pre text = some rest ↔ text = pre ++ rest := by
  rw [stripPrefix]
  constructor
  · intro h
    split at h
    · next hprefix =>
      cases h
      exact (List.prefix_iff_eq_append.mp hprefix).symm
    · cases h
  · rintro rfl
    rw [if_pos (List.prefix_append _ _), List.drop_left]

theorem stripSuffix_eq_some : stripSuffix suf text = some rest ↔ text = rest ++ suf := by
  rw [stripSuffix]
  constructor
  · intro h
    split at h
    · next hsuffix =>
      cases h
      exact (List.suffix_iff_eq_append.mp hsuffix).symm
    · cases h
  · rintro rfl
    rw [if_pos (List.suffix_append _ _), List.length_append, Nat.add_sub_cancel, List.take_left]

theorem splitOnce_eq (h : splitOnce sep l = some (a, b)) : l = a ++ sep ++ b := by
  induction l generalizing a b with
  | nil =>
    rw [splitOnce] at h
    split at h
    · next hsep =>
      cases h
      rw [hsep]
      rfl
    · cases h
  | cons c cs ih =>
    rw [splitOnce] at h
    split at h
    · next hprefix =>
      cases h
      exact (List.prefix_iff_eq_append.mp hprefix).symm
    · obtain ⟨⟨a', b'⟩, hrest, heq⟩ := Option.map_eq_some_iff.mp h
      cases heq
      rw [ih hrest]
      rfl

theorem replaceFrom_drop (n : Nat) :
    replaceFrom sep new n l = replaceFrom sep new 0 (l.drop n) := by
  induction l generalizing n with
  | nil => cases n <;> rfl
  | cons c cs ih =>
    cases n with
    | zero => rfl
    | succ n => exact ih n

theorem replaceFrom_none (h : splitOnce sep l = none) : replaceFrom sep new 0 l = l := by
  induction l with
  | nil => rfl
  | cons c cs ih =>
    rw [splitOnce] at h
    rw [replaceFrom]
    split at h
    · cases h
    · next hno =>
      rw [if_neg hno, ih (Option.map_eq_none_iff.mp h)]

/-- What is found once is replaced once. -/
theorem replaceFrom_once (hsep : sep ≠ []) (h : splitOnce sep l = some (a, b))
    (hb : splitOnce sep b = none) : replaceFrom sep new 0 l = a ++ new ++ b := by
  induction l generalizing a with
  | nil =>
    rw [splitOnce, if_neg hsep] at h
    cases h
  | cons c cs ih =>
    rw [splitOnce] at h
    rw [replaceFrom]
    split at h
    · next hprefix =>
      cases h
      have hlength : sep.length = sep.length - 1 + 1 := by
        have hpos := List.length_pos_iff.mpr hsep
        omega
      rw [hlength, List.drop_succ_cons] at hb
      rw [if_pos hprefix, replaceFrom_drop, replaceFrom_none hb, List.nil_append]
      conv_rhs => rw [hlength, List.drop_succ_cons]
    · next hno =>
      obtain ⟨⟨a', b'⟩, hrest, heq⟩ := Option.map_eq_some_iff.mp h
      cases heq
      rw [if_neg hno, ih hrest]
      rfl

theorem toList_hostFor (h : splitOnce slot pattern.toList = some (pre, suf))
    (honce : splitOnce slot suf = none) : (hostFor pattern s).toList = pre ++ s.toList ++ suf := by
  rw [hostFor, String.toList_ofList, replaceFrom_once (by decide) h honce]

/-- A host names a slug where it has it at its place in the pattern. -/
theorem slugOf_eq_some (h : splitOnce slot pattern.toList = some (pre, suf)) :
    slugOf pattern host = some s ↔ hostName host = pre ++ s.toList ++ suf ∧ s.toList ≠ [] ∧
      ∀ c ∈ s.toList, isLabelChar c = true := by
  rw [slugOf, h]
  simp only [Option.bind_eq_bind, Option.bind_some, Option.bind_eq_some_iff, stripPrefix_eq_some,
    stripSuffix_eq_some]
  constructor
  · rintro ⟨_, hhost, slug, rfl, hslug⟩
    split at hslug
    · cases hslug
    · next hlabel =>
      cases hslug
      rw [Bool.or_eq_true, not_or, Bool.not_eq_true, Bool.not_eq_true, Bool.not_eq_false',
        List.all_eq_true, List.isEmpty_eq_false_iff] at hlabel
      rw [String.toList_ofList, List.append_assoc]
      exact ⟨hhost, hlabel⟩
  · rintro ⟨hhost, hne, hlabel⟩
    rw [List.append_assoc] at hhost
    refine ⟨_, hhost, s.toList, rfl, ?_⟩
    rw [if_neg, String.ofList_toList]
    rw [Bool.or_eq_true, not_or, Bool.not_eq_true, Bool.not_eq_true, Bool.not_eq_false',
      List.all_eq_true, List.isEmpty_eq_false_iff]
    exact ⟨hne, hlabel⟩

theorem toLower_eq_colon : c.toLower = ':' ↔ c = ':' := by
  refine ⟨fun h => ?_, by rintro rfl; rfl⟩
  by_cases hup : c.isUpper = true
  · obtain ⟨hlow, hhigh⟩ := toNat_of_isUpper hup
    have hnat : (Char.ofNat (c.toNat + 32)).toNat = c.toNat + 32 := by
      rw [Char.ofNat, dif_pos (.inl (by omega))]
      rfl
    rw [Char.toLower_eq_of_isUpper hup] at h
    rw [h] at hnat
    have hcolon : ':'.toNat = 58 := rfl
    omega
  · rwa [Char.toLower_eq_of_not_isUpper hup] at h

/-- A host's name has no colon and no capital. -/
theorem of_mem_hostName (h : c ∈ hostName host) : c ≠ ':' ∧ c.isUpper = false := by
  obtain ⟨d, hd, rfl⟩ := List.mem_map.mp h
  have hne : (fun x => decide (x ≠ ':')) d = true :=
    List.mem_takeWhile_imp (p := fun x => decide (x ≠ ':')) hd
  exact ⟨fun heq => of_decide_eq_true hne (toLower_eq_colon.mp heq),
    Char.isUpper_toLower_eq_false d⟩

theorem hostName_of_spells (h : Spells host name) (hname : ∀ c ∈ name.toList, c ≠ ':') :
    hostName host = name.toList.map Char.toLower := by
  obtain ⟨letters, hletters, hhost⟩ := h
  have hno : ∀ c ∈ letters, decide (c ≠ ':') = true := by
    intro c hc
    refine decide_eq_true fun heq => ?_
    have hmem : c.toLower ∈ name.toList.map Char.toLower := hletters ▸ List.mem_map_of_mem hc
    obtain ⟨d, hd, hlower⟩ := List.mem_map.mp hmem
    rw [heq] at hlower
    exact hname d hd (toLower_eq_colon.mp hlower)
  rw [hostName, ← hletters]
  obtain hhost | ⟨port, -, hhost⟩ := hhost
  · rw [hhost, List.takeWhile_eq_self_iff.mpr hno]
  · rw [hhost, List.takeWhile_append_of_pos hno, List.takeWhile_cons_of_neg (by simp),
      List.append_nil]

theorem spells_self : Spells name name :=
  ⟨name.toList, rfl, .inl rfl⟩

end Hosts

/-! ### Grants -/

section Granted

variable {site : Site} {grants : Grants} {harness view path host hostSlug method : String}
  {p q : Package} {place : Location}

/-- A grant is of a package that is installed, for its host. -/
def Sound (site : Site) (grants : Grants) : Prop :=
  ∀ entry ∈ grants, entry.2.slug = slug entry.2.harness ∧
    ∃ p ∈ site.packages, p.id = entry.2.harness

theorem getSurfaceFile_ok (h : getSurfaceFile site harness view path = .ok (p, place)) :
    p ∈ site.packages ∧ p.id = harness ∧
      surfaceFile p.manifest p.dir site.found site.isFile view path = .ok place := by
  rw [getSurfaceFile] at h
  split at h
  · cases h
  · next q hq =>
    have hid := List.find?_some hq
    cases hfile : surfaceFile q.manifest q.dir site.found site.isFile view path with
    | error e =>
      rw [hfile] at h
      cases h
    | ok at' =>
      rw [hfile] at h
      cases h
      exact ⟨List.mem_of_find?_eq_some hq, of_decide_eq_true hid, hfile⟩

theorem makeRoom_subset : makeRoom grants ⊆ grants := by
  rw [makeRoom]
  split
  · exact fun entry hentry => List.mem_of_mem_filter hentry
  · exact List.Subset.refl _

theorem Sound.openSurface (h : Sound site grants) (o : Opening) :
    Sound site (openSurface site grants o) := by
  rw [Origins.openSurface]
  split
  · exact h
  · next found hfound =>
    obtain ⟨hmem, hid, -⟩ := getSurfaceFile_ok hfound
    intro entry hentry
    obtain rfl | hentry := List.mem_cons.mp hentry
    · exact ⟨rfl, found.1, hmem, hid⟩
    · exact h entry (makeRoom_subset (List.mem_of_mem_filter hentry))

/-- The grants are sound after any views were opened. -/
theorem sound_opened (openings : List Opening) : Sound site (opened site openings) := by
  induction openings using List.reverseRecOn with
  | nil => exact nofun
  | append_singleton openings o ih =>
    rw [opened, List.foldl_append]
    exact ih.openSurface o

theorem mem_of_lookup {token : String} {g : Grant} (h : grants.lookup token = some g) :
    (token, g) ∈ grants := by
  induction grants with
  | nil => cases h
  | cons entry rest ih =>
    obtain ⟨name, g'⟩ := entry
    rw [List.lookup_cons] at h
    split at h
    · next heq =>
      cases h
      rw [beq_iff_eq.mp heq]
      exact List.mem_cons_self
    · exact List.mem_cons_of_mem _ (ih h)

theorem answerOf_cases {grant : Grant} {rest : String} : answerOf site grant rest ≠ .next ∧
    ∀ q place, answerOf site grant rest = .file q place →
      getSurfaceFile site grant.harness grant.view rest = .ok (q, place) := by
  rw [answerOf]
  by_cases hpage : rest = ""
  · rw [if_pos hpage]
    exact ⟨nofun, fun _ _ heq => nomatch heq⟩
  by_cases hsdk : rest = sdkPath
  · rw [if_neg hpage, if_pos hsdk]
    exact ⟨nofun, fun _ _ heq => nomatch heq⟩
  rw [if_neg hpage, if_neg hsdk]
  cases stripPrefix sharedDir rest.toList with
  | some name =>
    dsimp only
    split <;> exact ⟨nofun, fun _ _ heq => nomatch heq⟩
  | none =>
    dsimp only
    cases getSurfaceFile site grant.harness grant.view rest with
    | error message => exact ⟨nofun, fun _ _ heq => nomatch heq⟩
    | ok found =>
      refine ⟨nofun, fun q place heq => ?_⟩
      cases heq
      rfl

/-- What a request to a harness's host can be answered with. -/
theorem serve_cases (h : Sound site grants) :
    serve site grants hostSlug method path ≠ .next ∧
      ∀ q place, serve site grants hostSlug method path = .file q place →
        q ∈ site.packages ∧ slug q.id = hostSlug ∧
          ∃ view rest, surfaceFile q.manifest q.dir site.found site.isFile view rest =
            .ok place := by
  rw [serve]
  split
  · exact ⟨nofun, fun _ _ heq => nomatch heq⟩
  cases splitGrantPath path with
  | none => exact ⟨nofun, fun _ _ heq => nomatch heq⟩
  | some parts =>
    obtain ⟨token, rest⟩ := parts
    dsimp only
    cases hgrant : (grants.lookup token).filter fun g => g.slug = hostSlug with
    | none => exact ⟨nofun, fun _ _ heq => nomatch heq⟩
    | some grant =>
      obtain ⟨hlookup, hslug⟩ := Option.filter_eq_some_iff.mp hgrant
      obtain ⟨hsound, -⟩ := h _ (mem_of_lookup hlookup)
      obtain ⟨hnext, hfile⟩ := @answerOf_cases site grant rest
      refine ⟨hnext, fun q place heq => ?_⟩
      obtain ⟨hmem, hid, hplace⟩ := getSurfaceFile_ok (hfile q place heq)
      refine ⟨hmem, ?_, _, _, hplace⟩
      rw [hid, ← hsound]
      exact of_decide_eq_true hslug

end Granted

theorem isPackageId_of_validate {m : Manifest} (h : m.validate = .ok ()) :
    isPackageId m.id = true := by
  rw [Manifest.validate] at h
  by_contra hid
  have hhead : ∃ e, m.validateHead = .error e := by
    rw [Manifest.validateHead, if_pos (by simpa using hid)]
    exact ⟨_, rfl⟩
  obtain ⟨e, hhead⟩ := hhead
  rw [hhead] at h
  cases h

/-- **An origin for each harness**: of packages that passed the gate, no two have one host, each
host names its package's slug again in any letter case and with any port, and is answered with
files of that package alone, exactly where no two ids have the same words, every id has one, and
the pattern has no colon and no capital. -/
theorem own_origins_iff (site : Site)
    (hvalid : ∀ p ∈ site.packages, p.manifest.validate = .ok ()) (honce : Once site.pattern) :
    OwnOrigins site ↔
      (∀ p ∈ site.packages, ∀ q ∈ site.packages, p.id ≠ q.id → wordsOf p.id ≠ wordsOf q.id) ∧
        ∀ p ∈ site.packages, wordsOf p.id ≠ [] ∧ Fits site.pattern := by
  obtain ⟨pre, suf, hsplit, hsuf⟩ := honce
  have hids : ∀ p ∈ site.packages, isPackageId p.id = true := fun p hp =>
    isPackageId_of_validate (hvalid p hp)
  have hhost : ∀ p : Package, (site.hostOf p).toList = pre ++ (slug p.id).toList ++ suf :=
    fun p => toList_hostFor hsplit hsuf
  have hpattern : site.pattern.toList = pre ++ slot ++ suf := splitOnce_eq hsplit
  constructor
  · intro hown
    constructor
    · intro p hp q hq hne hwords
      refine hown.distinct p hp q hq hne (String.toList_inj.mp ?_)
      rw [hhost, hhost, (slug_eq_iff (hids p hp) (hids q hq)).mpr hwords]
    · intro p hp
      obtain ⟨hname, hslug, -⟩ :=
        (slugOf_eq_some hsplit).mp (hown.back p hp (site.hostOf p) spells_self)
      refine ⟨fun hwords => hslug ((slug_eq_empty (hids p hp)).mpr hwords), fun c hc => ?_⟩
      have hin : ∀ c ∈ pre ++ suf, c ≠ ':' ∧ c.isUpper = false := by
        intro c hc
        have hmem : c ∈ hostName (site.hostOf p) := by
          rw [hname, List.mem_append, List.mem_append]
          exact (List.mem_append.mp hc).imp_left .inl
        exact of_mem_hostName hmem
      rw [hpattern, List.mem_append, List.mem_append] at hc
      obtain (hc | hc) | hc := hc
      · exact hin c (List.mem_append_left _ hc)
      · have hall : slot.all (fun c => c ≠ ':' && !c.isUpper) = true := by decide
        have hslot := List.all_eq_true.mp hall c hc
        rw [Bool.and_eq_true, decide_eq_true_iff, Bool.not_eq_true'] at hslot
        exact hslot
      · exact hin c (List.mem_append_right _ hc)
  · rintro ⟨hwords, hfits⟩
    have hslugs : ∀ p ∈ site.packages, ∀ q ∈ site.packages, slug p.id = slug q.id →
        p.id = q.id := by
      intro p hp q hq heq
      by_contra hne
      exact hwords p hp q hq hne ((slug_eq_iff (hids p hp) (hids q hq)).mp heq)
    have hback : ∀ p ∈ site.packages, ∀ host, Spells host (site.hostOf p) →
        slugOf site.pattern host = some (slug p.id) := by
      intro p hp host hspells
      obtain ⟨hsome, hfit⟩ := hfits p hp
      -- nothing of the host is a capital or a colon
      have hplain : ∀ c ∈ (site.hostOf p).toList, c ≠ ':' ∧ c.toLower = c := by
        intro c hc
        rw [hhost, List.mem_append, List.mem_append] at hc
        have hin : c ∈ site.pattern.toList → c ≠ ':' ∧ c.toLower = c := fun hmem =>
          ⟨(hfit c hmem).1,
            Char.toLower_eq_of_not_isUpper (Bool.eq_false_iff.mp (hfit c hmem).2)⟩
        rw [hpattern, List.mem_append, List.mem_append] at hin
        obtain (hc | hc) | hc := hc
        · exact hin (.inl (.inl hc))
        · obtain ⟨hlabel, hup⟩ := of_mem_slug hc
          refine ⟨?_, Char.toLower_eq_of_not_isUpper (Bool.eq_false_iff.mp hup)⟩
          rintro rfl
          cases hlabel
        · exact hin (.inr hc)
      rw [slugOf_eq_some hsplit, hostName_of_spells hspells fun c hc => (hplain c hc).1,
        List.map_congr_left fun c hc => (hplain c hc).2, List.map_id', hhost]
      exact ⟨rfl, fun hnil => hsome ((slug_eq_empty (hids p hp)).mp hnil),
        fun c hc => (of_mem_slug hc).1⟩
    refine ⟨fun p hp q hq hne heq => hne (hslugs p hp q hq ?_), hback, ?_⟩
    · have hlists := congrArg String.toList heq
      rw [hhost, hhost, List.append_assoc, List.append_assoc] at hlists
      exact String.toList_inj.mp (List.append_cancel_right (List.append_cancel_left hlists))
    · intro p hp host hspells openings method path
      rw [route, hback p hp host hspells]
      obtain ⟨hnext, hfile⟩ := @serve_cases site (opened site openings) path (slug p.id) method
        (sound_opened openings)
      refine ⟨hnext, fun q place heq => ?_⟩
      obtain ⟨hq, hslug, view, rest, hplace⟩ := hfile q place heq
      exact ⟨hslugs q hq p hp hslug, Manifests.surfaceFile_inside (hvalid q hq) hplace⟩

/-- A package with an id, and nothing else of note. -/
def packageOf (id : String) : Package :=
  ⟨{ Manifests.harnessOf (some "tools.json") none with id := id }, ["packages", id]⟩

/-- A server with the hosts it has unasked, and packages of some ids. -/
def siteOf (ids : List String) : Site where
  pattern := "h-{slug}.localhost"
  packages := ids.map packageOf
  found _ := true
  isFile _ := true
  provided _ := false

theorem once_siteOf (ids : List String) : Once (siteOf ids).pattern := by
  have hsplit : splitOnce slot "h-{slug}.localhost".toList =
      some ("h-".toList, ".localhost".toList) := by decide +kernel
  exact ⟨_, _, hsplit, by decide +kernel⟩

/-- Two packages with origins of their own. -/
theorem own_origins_iff_two : OwnOrigins (siteOf ["org.notes", "org.board"]) ↔
    (∀ p ∈ (siteOf ["org.notes", "org.board"]).packages,
      ∀ q ∈ (siteOf ["org.notes", "org.board"]).packages,
        p.id ≠ q.id → wordsOf p.id ≠ wordsOf q.id) ∧
      ∀ p ∈ (siteOf ["org.notes", "org.board"]).packages,
        wordsOf p.id ≠ [] ∧ Fits (siteOf ["org.notes", "org.board"]).pattern := by
  refine own_origins_iff _ (fun p hp => ?_) (once_siteOf _)
  obtain ⟨id, hid, rfl⟩ := List.mem_map.mp hp
  obtain rfl | rfl : id = "org.notes" ∨ id = "org.board" := by simpa using hid
  · rfl
  · rfl

/-- Two packages that pass the gate and share a host. -/
theorem origin_shared :
    (∀ p ∈ (siteOf ["org.my-notes", "org-my.notes"]).packages,
      p.manifest.validate = .ok ()) ∧
    Once (siteOf ["org.my-notes", "org-my.notes"]).pattern ∧
    hostFor "h-{slug}.localhost" (slug "org.my-notes") =
      hostFor "h-{slug}.localhost" (slug "org-my.notes") ∧
    ¬OwnOrigins (siteOf ["org.my-notes", "org-my.notes"]) := by
  have hhost : hostFor "h-{slug}.localhost" (slug "org.my-notes") =
      hostFor "h-{slug}.localhost" (slug "org-my.notes") := by decide +kernel
  refine ⟨fun p hp => ?_, once_siteOf _, hhost, fun hown => ?_⟩
  · obtain ⟨id, hid, rfl⟩ := List.mem_map.mp hp
    obtain rfl | rfl : id = "org.my-notes" ∨ id = "org-my.notes" := by simpa using hid
    · rfl
    · rfl
  · exact hown.distinct (packageOf "org.my-notes") (by simp [siteOf])
      (packageOf "org-my.notes") (by simp [siteOf]) (by decide +kernel) hhost

end Origins

end LocalSpace
