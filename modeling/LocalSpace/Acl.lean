import LocalSpace.Proto
import Mathlib.Order.Lattice

/-!
# Tenancy and access control

`acl.rs`: workspaces with their members, documents with what they were tightened to, and
the one check. A document without an ACL of its own follows its workspace's members; with
one, what it gives is capped by what the workspace gives (`AccessControl.held`). An
administrator inside a workspace on break-glass is `owner` of that one workspace's
documents and nothing anywhere else (`AccessControl.check`).
-/

namespace LocalSpace

inductive Principal where
  | user (u : UserId)
  | group (g : String)
  /-- Everyone in the workspace. -/
  | workspace
  deriving DecidableEq, Repr

inductive Level where
  | view | comment | edit | owner
  deriving DecidableEq, Repr

namespace Level

def rank : Level → Nat
  | view => 0
  | comment => 1
  | edit => 2
  | owner => 3

def label : Level → String
  | view => "view"
  | comment => "comment"
  | edit => "edit"
  | owner => "owner"

theorem rank_injective : Function.Injective rank := by
  intro a b
  cases a <;> cases b <;> simp [rank]

instance : LinearOrder Level := LinearOrder.lift' rank rank_injective

end Level

/-- Where an administrator went in with a reason, and the reason. -/
structure BreakGlass where
  workspace : WorkspaceId
  reason : String
  deriving DecidableEq, Repr

/-- Who a request is being made as. -/
structure Identity where
  user : UserId
  groups : List String := []
  breakGlass : Option BreakGlass := none
  deriving DecidableEq, Repr

/-- Whether a principal names this identity. "Everyone in the workspace" is not answered
here, where no workspace is in sight. -/
def Identity.matches (id : Identity) : Principal → Bool
  | .user u => u == id.user
  | .group g => id.groups.contains g
  | .workspace => false

structure Acl where
  entries : List (Principal × Level)
  deriving DecidableEq, Repr

namespace Acl

def ownedBy (user : UserId) : Acl :=
  ⟨[(.user user, .owner)]⟩

/-- The highest of some levels, if any. -/
def highest (levels : List Level) : Option Level :=
  levels.max?

/-- Highest level this identity holds, if any. -/
def levelFor (acl : Acl) (id : Identity) : Option Level :=
  highest ((acl.entries.filter fun e => id.matches e.1).map Prod.snd)

end Acl

/-- How agent writes reach a document. -/
inductive AgentWrites where
  | direct | proposal
  deriving DecidableEq, Repr

structure Workspace where
  id : WorkspaceId
  name : String
  personalTo : Option UserId
  defaultAcl : Acl
  agentWrites : AgentWrites
  createdMs : Nat
  createdBy : UserId
  deriving DecidableEq, Repr

namespace Workspace

/-- The id of a person's own workspace. -/
def personalId (user : UserId) : WorkspaceId :=
  s!"ws_{user}"

def personal (user : UserId) : Workspace where
  id := personalId user
  name := s!"{user}'s workspace"
  personalTo := some user
  defaultAcl := .ownedBy user
  agentWrites := .direct
  createdMs := 0
  createdBy := user

/-- A shared workspace an administrator made, owned by them. -/
def sharedBy (id : WorkspaceId) (name : String) (owner : UserId) (nowMs : Nat) : Workspace where
  id := id
  name := name
  personalTo := none
  defaultAcl := .ownedBy owner
  agentWrites := .proposal
  createdMs := nowMs
  createdBy := owner

/-- The level this workspace itself gives an identity, before any tightening. -/
def levelOf (ws : Workspace) (id : Identity) : Option Level :=
  ws.defaultAcl.levelFor id

/-- The members but one principal. -/
def without (ws : Workspace) (principal : Principal) : List (Principal × Level) :=
  ws.defaultAcl.entries.filter fun e => e.1 ≠ principal

/-- Give a principal a level here, replacing what it had. -/
def setMember (ws : Workspace) (principal : Principal) (level : Level) : Workspace :=
  { ws with defaultAcl := ⟨ws.without principal ++ [(principal, level)]⟩ }

/-- Returns whether the principal was a member. -/
def removeMember (ws : Workspace) (principal : Principal) : Bool × Workspace :=
  ((ws.without principal).length ≠ ws.defaultAcl.entries.length,
    { ws with defaultAcl := ⟨ws.without principal⟩ })

end Workspace

structure DocumentMeta where
  id : DocId
  workspace : WorkspaceId
  /-- Set when the document was tightened. -/
  acl : Option Acl
  title : String
  deriving DecidableEq, Repr

inductive Denied where
  | noSuchDocument (doc : DocId)
  | noSuchWorkspace (workspace : WorkspaceId)
  | insufficient (need : Level) (held : Option Level)
  deriving DecidableEq, Repr

/-- The words a refusal is told in. -/
def Denied.text : Denied → String
  | noSuchDocument d => s!"no document `{d}`"
  | noSuchWorkspace w => s!"no workspace `{w}`"
  | insufficient need (some l) =>
    s!"needs `{need.label}` on this document; you hold `{l.label}`"
  | insufficient need none => s!"needs `{need.label}` on this document"

structure AccessControl where
  workspaces : Table WorkspaceId Workspace
  documents : Table DocId DocumentMeta

namespace AccessControl

@[grind =]
def new : AccessControl :=
  ⟨∅, ∅⟩

def addWorkspace (ac : AccessControl) (ws : Workspace) : AccessControl :=
  { ac with workspaces := ac.workspaces.insert ws.id ws }

def workspace (ac : AccessControl) (id : WorkspaceId) : Option Workspace :=
  ac.workspaces.lookup id

/-- Register a document. Without an ACL of its own it follows its workspace's members as
they change; with one, it is tightened. -/
def addDocument (ac : AccessControl) (id : DocId) (workspace : WorkspaceId) (title : String)
    (acl : Option Acl) : AccessControl :=
  { ac with documents := ac.documents.insert id ⟨id, workspace, acl, title⟩ }

def document (ac : AccessControl) (id : DocId) : Option DocumentMeta :=
  ac.documents.lookup id

/-- What an identity holds on a document: its level in the workspace, capped by the
document's own tightening when it has one. -/
@[grind =]
def held (ac : AccessControl) (m : DocumentMeta) (id : Identity) : Option Level :=
  match ac.workspaces.lookup m.workspace with
  | none => none
  | some ws =>
    match ws.levelOf id with
    | none => none
    | some inWorkspace =>
      match m.acl with
      | none => some inWorkspace
      | some own =>
        (Acl.highest ((own.entries.filter fun e =>
            e.1 = .workspace ∨ id.matches e.1 = true).map Prod.snd)).map
          fun tightened => min tightened inWorkspace

/-- The one check. Every read, tool call and sync message goes through here. -/
def check (ac : AccessControl) (id : Identity) (doc : DocId) (need : Level) :
    Except Denied Level :=
  match ac.documents.lookup doc with
  | none => .error (.noSuchDocument doc)
  | some m =>
    if ac.workspaces.lookup m.workspace = none then
      .error (.noSuchWorkspace m.workspace)
    else
      let held :=
        if id.breakGlass.any fun glass => glass.workspace = m.workspace then some Level.owner
        else ac.held m id
      match held with
      | some l => if need ≤ l then .ok l else .error (.insufficient need (some l))
      | none => .error (.insufficient need none)

/-- Whether the check lets an identity through. -/
@[grind =]
def allows (ac : AccessControl) (id : Identity) (doc : DocId) (need : Level) : Bool :=
  (ac.check id doc need).toBool

/-- A change to one workspace, where there is one by that id. -/
def workspaceMut (ac : AccessControl) (id : WorkspaceId) (change : Workspace → Workspace) :
    AccessControl :=
  match ac.workspaces.lookup id with
  | none => ac
  | some ws => { ac with workspaces := ac.workspaces.insert id (change ws) }

/-- The level a workspace itself gives an identity: membership. -/
def levelIn (ac : AccessControl) (workspace : WorkspaceId) (id : Identity) : Option Level :=
  (ac.workspaces.lookup workspace).bind fun ws => ws.levelOf id

/-- What refuses one entry of a tightening: a level above what the workspace gives the same
principal. -/
def refusesEntry (ws : Workspace) (entry : Principal × Level) : Option String :=
  match Acl.highest ((ws.defaultAcl.entries.filter fun e => e.1 = entry.1).map Prod.snd) with
  | some held =>
    if entry.2 ≤ held then none
    else some
      ("a document cannot give more than its workspace does: " ++
        s!"`{held.label}` there, `{entry.2.label}` asked")
  | none => some "a document cannot give access to someone its workspace does not"

/-- Tighten a document, or clear the tightening. -/
def setDocumentAcl (ac : AccessControl) (doc : DocId) (acl : Option Acl) :
    Except String AccessControl :=
  match ac.documents.lookup doc with
  | none => .error s!"no document `{doc}`"
  | some m =>
    let set : AccessControl :=
      { ac with documents := ac.documents.insert doc { m with acl := acl } }
    match acl with
    | none => .ok set
    | some acl =>
      match ac.workspaces.lookup m.workspace with
      | none => .error s!"no workspace `{m.workspace}`"
      | some ws =>
        match acl.entries.findSome? (refusesEntry ws) with
        | some refused => .error refused
        | none => .ok set

/-- How an agent's writes reach this document. -/
def agentWrites (ac : AccessControl) (doc : DocId) : AgentWrites :=
  (((ac.documents.lookup doc).bind fun d => ac.workspaces.lookup d.workspace).map
    Workspace.agentWrites).getD .direct

/-! ### What the table holds after a change -/

@[simp] theorem document_addDocument_self (ac : AccessControl) (id : DocId) (w : WorkspaceId)
    (t : String) (a : Option Acl) :
    (ac.addDocument id w t a).document id = some ⟨id, w, a, t⟩ :=
  AList.lookup_insert _

theorem document_addDocument_ne (ac : AccessControl) {id d : DocId} (w : WorkspaceId)
    (t : String) (a : Option Acl) (h : d ≠ id) :
    (ac.addDocument id w t a).document d = ac.document d :=
  AList.lookup_insert_ne h

@[simp] theorem documents_workspaceMut (ac : AccessControl) (id : WorkspaceId)
    (change : Workspace → Workspace) : (ac.workspaceMut id change).documents = ac.documents := by
  unfold workspaceMut
  split <;> rfl

/-- A tightening that is accepted changes what one document, a known one, is tightened to. -/
theorem setDocumentAcl_ok {ac ac' : AccessControl} {doc : DocId} {acl : Option Acl}
    (h : ac.setDocumentAcl doc acl = .ok ac') : ∃ m, ac.document doc = some m ∧
      ac' = { ac with documents := ac.documents.insert doc { m with acl := acl } } := by
  unfold setDocumentAcl at h
  split at h
  · cases h
  · next m hm =>
    refine ⟨m, hm, ?_⟩
    dsimp only at h
    split at h
    · exact (Except.ok.inj h).symm
    · split at h
      · cases h
      · split at h
        · cases h
        · exact (Except.ok.inj h).symm

end AccessControl

end LocalSpace
