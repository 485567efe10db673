import LocalSpace.Installs
import LocalSpace.Library.Paths

/-!
# A package's manifest, and the files that are opened for it

`manifest.rs`: what a manifest declares, and the gate it passes at install (`Manifest.validate`).
`registry.rs`: the files that staging a package, bringing its logic online and serving its views
open, by paths that the manifest gives. Every one of them lies in the package's directory, whatever
directory that is, exactly where the paths that are joined to it unasked stay below it
(`own_files_iff`): of the modules of web views the gate and the server of their files see to that.
-/

namespace LocalSpace

namespace Manifests

open Library Paths
open Installs (Capabilities NetCap)

inductive Tier where
  | wasm | native
  deriving DecidableEq

inductive PackageKind where
  | harness | library | types | template | modelPack | skill | theme
  deriving DecidableEq

def PackageKind.label : PackageKind → String
  | harness => "harness"
  | library => "library"
  | types => "types"
  | template => "template"
  | modelPack => "model-pack"
  | skill => "skill"
  | theme => "theme"

inductive SurfaceKind where
  | widgets | egui | web | stream | native
  deriving DecidableEq

structure ViewDecl where
  id : String
  kind : SurfaceKind
  module : Option String

inductive DepSpec where
  | version (req : String)
  | detailed (req : Option String) (optional isInterface : Bool)

def DepSpec.required : DepSpec → Option String
  | version req => some req
  | detailed req _ _ => req

def DepSpec.isInterface : DepSpec → Bool
  | version _ => false
  | detailed _ _ isInterface => isInterface

/-- What of a manifest its gate and the paths ask for. -/
structure Manifest where
  id : String
  api : String
  tier : Tier
  nativeReason : Option String
  kind : PackageKind
  capabilities : Capabilities
  logicMb : Nat
  surfaceMb : Nat
  idleUnload : String
  views : List ViewDecl
  tools : Option String
  logic : Option String
  accepts : List String
  produces : List String
  types : Option String
  dependencies : List (String × DepSpec)

/-! ### The gate -/

/-- `HARNESS_API`. -/
def harnessApi : String := "1.0.0"

/-- `str::split` at one character. -/
def splitAtChar (sep : Char) (text : List Char) : List (List Char) :=
  text.splitOnP (· = sep)

/-- A package id: reverse-DNS, and nothing a path could be made of. -/
def isPackageId (id : String) : Bool :=
  let parts := splitAtChar '.' id.toList
  2 ≤ parts.length && parts.all fun p =>
    !p.isEmpty && p.all fun c => c.isLower || c.isDigit || c = '-'

def parseSemver (s : String) : Nat × Nat × Nat :=
  let part (i : Nat) : Nat :=
    (((splitAtChar '.' (trim s).toList)[i]?).bind fun p => parseU32 (trim (String.ofList p))).getD 0
  (part 0, part 1, part 2)

/-- Minimal semver range check: `^X.Y`, `~X.Y`, `X.Y`, and `*`. -/
def apiRangeAccepts (range version : String) : Bool :=
  let v := parseSemver version
  let range := trim range
  if range = "*" then true
  else
    let r (rest : List Char) := parseSemver (String.ofList rest)
    let atLeast (r : Nat × Nat) : Bool := r.1 < v.2.1 || (r.1 = v.2.1 && r.2 ≤ v.2.2)
    match range.toList with
    | '~' :: rest => v.1 = (r rest).1 && v.2.1 = (r rest).2.1 && (r rest).2.2 ≤ v.2.2
    | '=' :: rest => v = r rest
    | '^' :: rest => v.1 = (r rest).1 && atLeast (r rest).2
    | all => v.1 = (r all).1 && atLeast (r all).2

/-- `30s`, `5m`, `2h`, or a bare number of seconds. -/
def parseDuration (s : String) : Except String Nat :=
  let s := trim s
  let num := s.toList.takeWhile Char.isDigit
  let unit := if num.length = s.toList.length then "s"
    else String.ofList (s.toList.drop num.length)
  let n := num.foldl (fun n d => n * 10 + (d.toNat - 48)) 0
  if num.isEmpty || 2 ^ 64 ≤ n then .error s!"`{s}` is not a duration like 30s, 5m or 2h"
  else match trim unit with
    | "s" | "sec" | "secs" => .ok n
    | "m" | "min" | "mins" => .ok (n * 60 % 2 ^ 64)
    | "h" | "hr" | "hrs" => .ok (n * 3600 % 2 ^ 64)
    | other => .error s!"`{other}` is not a duration unit (use s, m or h)"

/-- What is before and after the last `.v`. -/
def rsplitVersion : List Char → Option (List Char × List Char)
  | [] => none
  | c :: cs =>
    match rsplitVersion cs with
    | some (name, version) => some (c :: name, version)
    | none => match c, cs with
      | '.', 'v' :: version => some ([], version)
      | _, _ => none

/-- `name.vN`: a lower-case name, a version suffix. -/
def validInterchangeKind (kind : String) : Bool :=
  match rsplitVersion kind.toList with
  | none => false
  | some (name, version) =>
    !name.isEmpty && name.all (fun c => c.isLower || c.isDigit || c = '-' || c = '.') &&
      !version.isEmpty && version.all Char.isDigit

/-- `^1.2`, `~1.2.3`, `=1.0.0`, `*`, or a bare `1.2`. -/
def validRequirement (req : String) : Bool :=
  let r := trim req
  if r = "*" then true
  else
    let body := r.toList.dropWhile fun c => c = '^' || c = '~' || c = '='
    !body.isEmpty && (splitAtChar '.' body).all fun p => !p.isEmpty && p.all Char.isDigit

/-- The entry module of a web view: an `index.js`, by a path inside the package. -/
def validateModule (viewId m : String) : Except String Unit :=
  if m ≠ "index.js" ∧ ¬"/index.js".toList <:+ m.toList then
    .error (s!"view `{viewId}` is kind = \"web\" but its module `{m}` is not an `index.js`: " ++
      "the entry module of a web view is `index.js` in the directory the harness's origin serves")
  else if m.toList.head? = some '/' ∨ "..".toList <:+: m.toList then
    .error s!"view `{viewId}`: module `{m}` must be a path inside the package"
  else .ok ()

def validateView (tier : Tier) (v : ViewDecl) : Except String Unit :=
  match v.kind, v.module with
  | .egui, none => .error s!"view `{v.id}` is kind = \"egui\" but declares no module"
  | .web, none => .error s!"view `{v.id}` is kind = \"web\" but declares no module"
  | .web, some m => validateModule v.id m
  | .native, _ =>
    .error (s!"view `{v.id}` is kind = \"native\": reserved for the Tier B runtime " ++
      "(architecture v2 §13 step 8) and not supported by this host, harness-api " ++ harnessApi)
  | .stream, _ =>
    if tier ≠ .native then
      .error s!"view `{v.id}` is kind = \"stream\", which only a native-tier harness can render"
    else .ok ()
  | _, _ => .ok ()

def validateDependency (id : String) (spec : DepSpec) : Except String Unit :=
  if spec.isInterface then
    if !id.toList.contains '.' then
      .error s!"interface dependency `{id}` should be a dotted interface name"
    else .ok ()
  else if !id.toList.contains '.' && !id.toList.contains '/' then
    .error s!"dependency `{id}` is not a package id (reverse-DNS, or <org-domain>/name)"
  else match spec.required with
    | none => .error s!"dependency `{id}` needs a version requirement, e.g. \"^1.2\""
    | some req =>
      if !validRequirement req then
        .error s!"dependency `{id}` has an unreadable version requirement `{req}`"
      else .ok ()

namespace Manifest

variable (m : Manifest)

def isHarness : Bool :=
  m.kind = .harness

def view (id : String) : Option ViewDecl :=
  m.views.find? fun v => v.id = id

def validateKind : Except String Unit := do
  if !m.isHarness then
    if !m.views.isEmpty || m.tools.isSome then
      throw s!"a `{m.kind.label}` package may not declare views or tools"
  else if m.tools.isNone then
    throw "a harness needs `[contributes] tools`; without tools it is not agent-usable"
  if m.kind = .types ∧ m.types = none then
    throw ("a `types` package needs `[contributes] types = \"types.toml\"`, the file that " ++
      "declares its interchange types")
  if m.kind ≠ .types ∧ m.types.isSome then
    throw ("only a `types` package may declare `[contributes] types`; this one is a " ++
      s!"`{m.kind.label}`")

def validateNet : Except String Unit :=
  match m.capabilities.net with
  | .simple _ => .ok ()
  | .allowlist hosts reason =>
    if hosts.isEmpty then .error "net allowlist is empty; use net = \"none\""
    else if trim reason = "" then .error "net allowlist requires a `reason` shown at install"
    else .ok ()

def validateHead : Except String Unit := do
  if !isPackageId m.id then
    throw (s!"harness id `{m.id}` is not reverse-DNS: lower-case letters, digits and dashes in " ++
      "at least two dot-separated parts (e.g. io.localspace.whiteboard)")
  if !apiRangeAccepts m.api harnessApi then
    throw s!"package needs harness-api {m.api}, host provides {harnessApi}"
  if m.tier = .native ∧ trim (m.nativeReason.getD "") = "" then
    throw "tier = \"native\" requires a `native_reason` shown in the install dialog"
  if m.tier = .wasm ∧ m.capabilities.gpu.wanted = true then
    throw "gpu capability requires tier = \"native\""
  if m.tier = .wasm ∧ m.capabilities.spawn = true then
    throw "spawn capability requires tier = \"native\""

def validateResources : Except String Unit := do
  if m.logicMb = 0 ∨ m.surfaceMb = 0 then
    throw "[resources] memory_mb must be positive for both logic and surface"
  if 4096 < m.logicMb then
    throw (s!"[resources] memory_mb.logic = {m.logicMb} exceeds the 4 GB a wasm32 component can " ++
      "address")
  match parseDuration m.idleUnload with
  | .error e => throw s!"[resources] idle_unload: {e}"
  | .ok _ => pure ()

/-- Install-time gate. A package is rejected here rather than at first use. -/
def validate : Except String Unit := do
  m.validateHead
  m.views.forM (validateView m.tier)
  m.validateResources
  (m.accepts ++ m.produces).forM fun kind =>
    if !validInterchangeKind kind then throw
      s!"`{kind}` is not an interchange type; expected the form `name.vN`, e.g. outline.v1"
    else pure ()
  m.validateKind
  m.dependencies.forM fun d => validateDependency d.1 d.2
  m.validateNet

end Manifest

/-! ### Paths, and the files opened -/

/-- A directory or a file, from the root. -/
abbrev Location := List String

/-- A path's segments; empty ones and `.` are none. -/
def segmentsOf (text : String) : List String :=
  ((splitAtChar '/' text.toList).map String.ofList).filter fun seg => seg ≠ "" ∧ seg ≠ "."

def isAbsolute (text : String) : Bool :=
  text.toList.head? = some '/'

/-- `Path::join`: an absolute path replaces what it is joined to. -/
@[grind =]
def join (dir : Location) (text : String) : Location :=
  if isAbsolute text then segmentsOf text else dir ++ segmentsOf text

/-- A file lies inside a directory. -/
@[grind =]
def Inside (dir file : Location) : Prop :=
  settle [] dir <+: settle [] file

instance (dir file : Location) : Decidable (Inside dir file) :=
  inferInstanceAs (Decidable (_ <+: _))

section Files

variable (m : Manifest) (dir : Location)

/-- `Registry::stage`: the files it reads, the manifest first, or why it stops there. -/
def stage (tierBPermitted : Bool) : Except String (List Location) :=
  if m.tier = .native ∧ !tierBPermitted then
    .error s!"`{m.id}` is a Tier B (native) harness and Tier B is disabled here"
  else
    let tools := if m.isHarness then [join dir (m.tools.getD "tools.json")] else []
    let types := match m.types, m.kind with
      | some path, .types => [join dir path]
      | _, _ => []
    .ok (join dir "harness.toml" :: tools ++ types)

/-- The logic a harness runs, where it names none. -/
def defaultLogic : Tier → String
  | .wasm => "logic.wasm"
  | .native => "logic"

/-- `Registry::instantiate`: the logic that is read and loaded, or spawned. -/
def instantiate : Option Location :=
  if m.isHarness then some (join dir (m.logic.getD (defaultLogic m.tier))) else none

/-- `Installed::surface_module`. -/
def surfaceModule (viewId : String) : Except String Location :=
  match m.view viewId with
  | none => .error s!"`{m.id}` has no view `{viewId}`"
  | some v =>
    if v.kind ≠ .egui then .error s!"view `{viewId}` is not an egui surface"
    else match v.module with
      | none => .error "egui view declares no module"
      | some module => .ok (join dir module)

/-- `Path::parent`, of a path that is not the root. -/
def parentOf (file : Location) : Location :=
  file.dropLast

def isSlash (c : Char) : Bool :=
  c = '/' || c = '\\'

/-- A segment that a web view's file may have. -/
def cleanSegment (seg : List Char) : Bool :=
  !seg.isEmpty && seg ≠ ['.'] && seg ≠ ['.', '.'] && !seg.contains ':'

/-- `Installed::surface_file`; `found` and `isFile` are the file system's, of places without
`..`. -/
def surfaceFile (found isFile : Location → Bool) (viewId path : String) : Except String Location :=
  match m.view viewId with
  | none => .error s!"`{m.id}` has no view `{viewId}`"
  | some v =>
    if v.kind ≠ .web then .error s!"view `{viewId}` is not a web surface"
    else match v.module with
      | none => .error "web view declares no module"
      | some module =>
        let root := parentOf (join dir module)
        let rel := path.toList.dropWhile isSlash
        let clean := (rel.splitOnP isSlash).all cleanSegment
        let refused := s!"`{path}` is not a file under the view's directory"
        if rel.isEmpty || !clean then .error refused
        else
          let rootC := settle [] root
          let fullC := settle [] (join root (String.ofList rel))
          let shown := "/".intercalate root
          if !found rootC then .error s!"the view's directory {shown} is missing"
          else if !found fullC then .error s!"no file `{path}` in view `{viewId}`"
          else if ¬rootC <+: fullC ∨ !isFile fullC then .error refused
          else .ok fullC

end Files

/-- A file is opened on a package's behalf. -/
def Opens (m : Manifest) (dir file : Location) : Prop :=
  (∃ tierBPermitted files, stage m dir tierBPermitted = .ok files ∧ file ∈ files) ∨
    instantiate m dir = some file ∨ (∃ viewId, surfaceModule m dir viewId = .ok file) ∨
    ∃ found isFile viewId path, surfaceFile m dir found isFile viewId path = .ok file

/-- The paths of a manifest that are joined to the package's directory unasked: those of the tools
and the logic of a harness, of the types of a types package, and of the modules of egui views. -/
def Joins (m : Manifest) (text : String) : Prop :=
  (m.isHarness = true ∧
      (text = m.tools.getD "tools.json" ∨ text = m.logic.getD (defaultLogic m.tier))) ∨
    (m.kind = .types ∧ m.types = some text) ∨
    ∃ viewId v, m.view viewId = some v ∧ v.kind = .egui ∧ v.module = some text

/-- A path is relative, and never goes above where it starts. -/
def Stays (text : String) : Prop :=
  isAbsolute text = false ∧ Below (segmentsOf text)

instance (text : String) : Decidable (Stays text) :=
  inferInstanceAs (Decidable (_ ∧ _))

section Paths

variable {m : Manifest} {dir file : Location} {text : String}

theorem inside_of_below {segs : List String} (h : Below segs) : Inside dir (dir ++ segs) := by
  rw [Inside, settle_append]
  have hprefix := prefix_settle (settle [] dir) [] h
  rw [List.append_nil] at hprefix
  exact hprefix

theorem inside_of_stays (h : Stays text) : Inside dir (join dir text) := by
  obtain ⟨hrelative, hbelow⟩ := h
  rw [join, hrelative, if_neg Bool.false_ne_true]
  exact inside_of_below hbelow

/-- A path leads inside every directory it is joined to exactly where it stays. -/
theorem inside_iff : (∀ dir, Inside dir (join dir text)) ↔ Stays text := by
  refine ⟨fun h => ?_, fun h dir => inside_of_stays h⟩
  -- a directory whose name is none of the path's segments
  obtain ⟨d, hd⟩ := exists_fresh (".." :: segmentsOf text)
  have hup : d ≠ ".." := fun heq => hd (heq ▸ List.mem_cons_self)
  have hsegs : d ∉ segmentsOf text := fun hmem => hd (List.mem_cons_of_mem _ hmem)
  have hdir : settle [] [d] = [d] := by
    rw [settle, if_neg hup]
    rfl
  have hin : d ∈ settle [] (join [d] text) := by
    have hinside := h [d]
    rw [Inside, hdir] at hinside
    exact hinside.subset List.mem_cons_self
  cases hrelative : isAbsolute text with
  | true =>
    rw [join, if_pos hrelative] at hin
    obtain hmem | hmem := mem_settle hin
    · cases hmem
    · exact absurd hmem hsegs
  | false =>
    refine ⟨hrelative, ?_⟩
    by_contra hbelow
    rw [join, hrelative, if_neg Bool.false_ne_true, settle_append, hdir] at hin
    exact not_mem_settle hsegs List.not_mem_nil hbelow hin

/-! ### Files of web views -/

theorem mem_segmentsOf {seg : String} (h : seg ∈ segmentsOf text) :
    seg.toList ∈ splitAtChar '/' text.toList := by
  obtain ⟨p, hp, rfl⟩ := List.mem_map.mp (List.mem_of_mem_filter h)
  rw [String.toList_ofList]
  exact hp

/-- A path with no `..` in it has no segment that is. -/
theorem no_up_of_infix (h : ¬"..".toList <:+: text.toList) : ".." ∉ segmentsOf text :=
  fun hmem => h (infix_of_mem_splitOnP (mem_segmentsOf hmem))

/-- An `index.js` is the last segment of its path. -/
theorem index_mem (h : text = "index.js" ∨ "/index.js".toList <:+ text.toList) :
    "index.js" ∈ segmentsOf text := by
  have hall : "index.js".toList.all (fun c => !decide (c = '/')) = true := by decide
  have hno : ∀ c ∈ "index.js".toList, decide (c = '/') = false :=
    fun c hc => (Bool.not_eq_true' _).mp (List.all_eq_true.mp hall c hc)
  have hpiece : "index.js".toList ∈ splitAtChar '/' text.toList := by
    obtain rfl | ⟨before, hbefore⟩ := h
    · rw [splitAtChar, List.splitOnP_eq_singleton hno]
      exact List.mem_singleton_self _
    · have hcons : "/index.js".toList = '/' :: "index.js".toList := by decide
      rw [splitAtChar, ← hbefore, hcons, List.splitOnP_append_cons _ _ (by decide),
        List.splitOnP_eq_singleton hno]
      exact List.mem_append_right _ (List.mem_singleton_self _)
  refine List.mem_filter.mpr ⟨List.mem_map.mpr ⟨_, hpiece, String.ofList_toList⟩, by decide⟩

/-- The gate's answer on the module of a web view. -/
theorem validateModule_ok {viewId module : String} (h : validateModule viewId module = .ok ()) :
    "index.js" ∈ segmentsOf module ∧ isAbsolute module = false ∧ ".." ∉ segmentsOf module := by
  rw [validateModule] at h
  split at h
  · cases h
  · next hindex =>
    split at h
    · cases h
    · next hplain =>
      obtain ⟨hrelative, hno⟩ := not_or.mp hplain
      refine ⟨index_mem ?_, decide_eq_false hrelative, no_up_of_infix hno⟩
      by_cases hname : module = "index.js"
      · exact .inl hname
      · exact .inr (not_not.mp fun hsuffix => hindex ⟨hname, hsuffix⟩)

theorem forM_ok {α : Type} {f : α → Except String Unit} {l : List α} (h : l.forM f = .ok ()) :
    ∀ a ∈ l, f a = .ok () := by
  induction l with
  | nil => exact nofun
  | cons a rest ih =>
    have hboth : (f a >>= fun _ => rest.forM f) = .ok () := h
    cases ha : f a with
    | error e =>
      rw [ha] at hboth
      cases hboth
    | ok u =>
      rw [ha] at hboth
      intro b hb
      obtain rfl | hb := List.mem_cons.mp hb
      · exact ha
      · exact ih hboth b hb

/-- Every view of a manifest that passed the gate passed its own. -/
theorem validateView_of_validate (h : m.validate = .ok ()) :
    ∀ v ∈ m.views, validateView m.tier v = .ok () := by
  rw [Manifest.validate] at h
  cases hhead : m.validateHead with
  | error e =>
    rw [hhead] at h
    cases h
  | ok u =>
    cases hviews : m.views.forM (validateView m.tier) with
    | error e =>
      rw [hhead, hviews] at h
      cases h
    | ok u => exact forM_ok hviews

/-- What a web view's server takes for a file has no `..`. -/
theorem no_up_of_clean {rel : List Char} (h : (rel.splitOnP isSlash).all cleanSegment = true) :
    ".." ∉ segmentsOf (String.ofList rel) := by
  intro hmem
  have hpiece := mem_segmentsOf hmem
  rw [String.toList_ofList] at hpiece
  have hall : "..".toList.all (fun c => !isSlash c) = true := by decide
  have hfiner : "..".toList ∈ rel.splitOnP isSlash := by
    refine mem_splitOnP_of_finer (fun c hc => ?_)
      (fun c hc => (Bool.not_eq_true' _).mp (List.all_eq_true.mp hall c hc)) hpiece
    rw [of_decide_eq_true hc]
    rfl
  have hclean := List.all_eq_true.mp h _ hfiner
  exact absurd hclean (by decide)

/-- What a web view's server opens lies inside the package. -/
theorem surfaceFile_inside {found isFile : Location → Bool} {viewId path : String}
    (hvalid : m.validate = .ok ())
    (h : surfaceFile m dir found isFile viewId path = .ok file) : Inside dir file := by
  rw [surfaceFile] at h
  split at h
  · cases h
  · next v hv =>
    split at h
    · cases h
    · next hweb =>
      split at h
      · cases h
      · next module hmodule =>
        dsimp only at h
        split at h
        · cases h
        · next hrel =>
          split at h
          · cases h
          · split at h
            · cases h
            · split at h
              · cases h
              · cases h
                have hkind : v.kind = .web := not_not.mp hweb
                have hview := validateView_of_validate hvalid v (List.mem_of_find?_eq_some hv)
                rw [validateView, hkind, hmodule] at hview
                obtain ⟨hindex, hmodule, hno⟩ := validateModule_ok hview
                simp only [Bool.or_eq_true, not_or, Bool.not_eq_true, Bool.not_eq_false'] at hrel
                obtain ⟨hsome, hclean⟩ := hrel
                -- what follows the slashes a path begins with is relative
                have hrelative :
                    isAbsolute (String.ofList (path.toList.dropWhile isSlash)) = false := by
                  rw [isAbsolute, String.toList_ofList, decide_eq_false_iff_not]
                  intro hhead
                  have hfirst := List.head?_dropWhile_not isSlash path.toList
                  rw [hhead] at hfirst
                  exact absurd hfirst (by decide)
                have hroot : parentOf (join dir module) = dir ++ (segmentsOf module).dropLast := by
                  rw [parentOf, join, hmodule, if_neg Bool.false_ne_true,
                    List.dropLast_append_of_ne_nil (List.ne_nil_of_mem hindex)]
                rw [Inside, settle_settle, hroot, join, hrelative, if_neg Bool.false_ne_true,
                  List.append_assoc]
                refine inside_of_below (below_of_no_up fun hmem => ?_)
                obtain hin | hin := List.mem_append.mp hmem
                · exact hno (List.mem_of_mem_dropLast hin)
                · exact no_up_of_clean hclean hin

theorem opens_inside (hvalid : m.validate = .ok ()) (hstays : ∀ text, Joins m text → Stays text)
    (h : Opens m dir file) : Inside dir file := by
  obtain ⟨tierBPermitted, files, hstage, hfile⟩ | hlogic | ⟨viewId, hmodule⟩ | hweb := h
  · rw [stage] at hstage
    split at hstage
    · cases hstage
    · cases hstage
      rw [List.cons_append, List.mem_cons, List.mem_append] at hfile
      obtain rfl | htools | htypes := hfile
      · exact inside_of_stays (by decide)
      · split at htools
        · next hharness =>
          rw [List.mem_singleton.mp htools]
          exact inside_of_stays (hstays _ (.inl ⟨hharness, .inl rfl⟩))
        · cases htools
      · split at htypes
        · next path htext hkind =>
          rw [List.mem_singleton.mp htypes]
          exact inside_of_stays (hstays _ (.inr (.inl ⟨hkind, htext⟩)))
        · cases htypes
  · rw [instantiate] at hlogic
    split at hlogic
    · next hharness =>
      cases hlogic
      exact inside_of_stays (hstays _ (.inl ⟨hharness, .inr rfl⟩))
    · cases hlogic
  · rw [surfaceModule] at hmodule
    split at hmodule
    · cases hmodule
    · next v hv =>
      split at hmodule
      · cases hmodule
      · next hegui =>
        split at hmodule
        · cases hmodule
        · next text htext =>
          cases hmodule
          exact inside_of_stays (hstays _ (.inr (.inr ⟨viewId, v, hv, not_not.mp hegui, htext⟩)))
  · obtain ⟨found, isFile, viewId, path, hfile⟩ := hweb
    exact surfaceFile_inside hvalid hfile

/-- What is joined unasked is opened. -/
theorem opens_of_joins (h : Joins m text) (dir : Location) : Opens m dir (join dir text) := by
  obtain ⟨hharness, rfl | rfl⟩ | ⟨hkind, htypes⟩ | ⟨viewId, v, hv, hegui, hmodule⟩ := h
  · refine .inl ⟨true, _, if_neg (by simp), ?_⟩
    rw [if_pos hharness]
    simp
  · refine .inr (.inl ?_)
    rw [instantiate, if_pos hharness]
  · refine .inl ⟨true, _, if_neg (by simp), ?_⟩
    rw [htypes, hkind]
    simp
  · refine .inr (.inr (.inl ⟨viewId, ?_⟩))
    rw [surfaceModule, hv]
    dsimp only
    rw [if_neg (not_not.mpr hegui), hmodule]

/-- **A package's own files**: everything that is opened for a manifest that passed the gate lies
inside its package's directory, whichever that is, exactly where the paths that are joined to it
unasked stay below it. -/
theorem own_files_iff (hvalid : m.validate = .ok ()) :
    (∀ dir file, Opens m dir file → Inside dir file) ↔ ∀ text, Joins m text → Stays text := by
  constructor
  · intro h text hjoins
    exact inside_iff.mp fun dir => h dir _ (opens_of_joins hjoins dir)
  · exact fun hstays dir file hopens => opens_inside hvalid hstays hopens

end Paths

/-- A harness, but for where its tools and its logic are. -/
def harnessOf (tools logic : Option String) : Manifest where
  id := "org.notes"
  api := "^1.0"
  tier := .wasm
  nativeReason := none
  kind := .harness
  capabilities := {}
  logicMb := 64
  surfaceMb := 64
  idleUnload := "5m"
  views := [⟨"page", .web, some "ui/index.js"⟩]
  tools := tools
  logic := logic
  accepts := ["note.v1"]
  produces := []
  types := none
  dependencies := []

/-- One whose paths stay in its directory. -/
theorem own_files_iff_plain : (harnessOf (some "tools.json") none).validate = .ok () ∧
    ((∀ dir file, Opens (harnessOf (some "tools.json") none) dir file → Inside dir file) ↔
      ∀ text, Joins (harnessOf (some "tools.json") none) text → Stays text) := by
  have hvalid : (harnessOf (some "tools.json") none).validate = .ok () := by rfl
  exact ⟨hvalid, own_files_iff hvalid⟩

/-- One whose tools are another package's, and whose logic is anywhere. -/
def reaching : Manifest :=
  harnessOf (some "../org.other/tools.json") (some "/tmp/logic.wasm")

theorem reaching_leaves : reaching.validate = .ok () ∧
    Opens reaching ["packages", "org.notes"]
      ["packages", "org.notes", "..", "org.other", "tools.json"] ∧
    ¬Inside ["packages", "org.notes"] ["packages", "org.notes", "..", "org.other", "tools.json"] ∧
    Opens reaching ["packages", "org.notes"] ["tmp", "logic.wasm"] ∧
    ¬Inside ["packages", "org.notes"] ["tmp", "logic.wasm"] := by
  refine ⟨by rfl, .inl ⟨true, _, rfl, ?_⟩, ?_, .inr (.inl ?_), ?_⟩ <;> decide

end Manifests

end LocalSpace
