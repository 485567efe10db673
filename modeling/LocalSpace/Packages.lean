import LocalSpace.Proto

/-!
# Installed packages

What Core reads of an installed package (`manifest.rs`, `tools.rs`, `types.rs`) and the set
of them (`registry.rs`), iterated in the order of their ids. A package's logic is not here:
its instances answer through the `Host`.
-/

namespace LocalSpace

structure ToolDecl where
  name : String
  summary : String
  params : Json
  kind : ToolKind
  frontDoor : Bool
  undoable : Bool
  confirm : Confirm

/-- How an interchange kind is declared by a types package. -/
structure TypeDecl where
  mime : String
  extension : String
  required : List String

/-- The required fields `fields` lacks, in declared order. -/
def TypeDecl.missing (decl : TypeDecl) (fields : List (String × Json)) : List String :=
  decl.required.filter fun f => (fields.lookup f).all Json.isNull

inductive PackageKind where
  | harness | types | library
  deriving DecidableEq

structure Installed where
  id : HarnessId
  title : String
  kind : PackageKind
  views : List String
  docKind : DocKind
  contextProvider : Bool
  accepts : List String
  produces : List String
  tools : List ToolDecl
  types : List (String × TypeDecl)
  logicMemoryMb : Nat
  enabled : Bool

namespace Installed

def isHarness (h : Installed) : Bool :=
  h.kind = .harness

/-- `ToolSet::get`. -/
def tool (h : Installed) (name : String) : Option ToolDecl :=
  h.tools.find? fun t => t.name = name

end Installed

/-- The installed set, in the order of the packages' ids. -/
structure Registry where
  harnesses : List Installed

namespace Registry

@[grind =]
def new : Registry :=
  ⟨[]⟩

def iter (r : Registry) : List Installed :=
  r.harnesses

@[grind =]
def get (r : Registry) (id : HarnessId) : Option Installed :=
  r.harnesses.find? fun h => h.id = id

def remove (r : Registry) (id : HarnessId) : Registry :=
  ⟨r.harnesses.filter fun h => h.id ≠ id⟩

/-- `BTreeMap::insert`, of packages in the order of their ids. -/
def insertSorted (installed : Installed) : List Installed → List Installed
  | [] => [installed]
  | h :: rest =>
    if installed.id = h.id then installed :: rest
    else if installed.id < h.id then installed :: h :: rest
    else h :: insertSorted installed rest

def insert (r : Registry) (installed : Installed) : Registry :=
  ⟨insertSorted installed r.harnesses⟩

/-- Switch a package on or off, where it is installed. -/
def setEnabled (r : Registry) (id : HarnessId) (enabled : Bool) : Registry :=
  ⟨r.harnesses.map fun h => if h.id = id then { h with enabled := enabled } else h⟩

/-- Which harness owns a fully-qualified tool name. -/
def ownerOf (r : Registry) (tool : String) : Option Installed :=
  r.iter.find? fun h => (h.tool tool).isSome

/-- Which installed types package declares an interchange kind, and how. -/
def typeDecl (r : Registry) (kind : String) : Option (Installed × TypeDecl) :=
  r.iter.findSome? fun h => (h.types.lookup kind).map fun d => (h, d)

/-- The first harness, which a fresh Core has in focus. -/
def firstHarness (r : Registry) : Option HarnessId :=
  (r.iter.find? Installed.isHarness).map Installed.id

end Registry

end LocalSpace
