import LocalSpace.Steps
import LocalSpace.Sample

/-!
# How long a tightening stays in force

`SetDocumentAccess` writes a tightening in two places: the database's record, and the table the
check reads. Three things write to that table afterwards. A restart fills it from the records
(`new_tightened`). A file exported again is registered as one nobody tightened, under the name its
content gives it. And a harness's document a workspace has not used since the restart is
registered as one nobody tightened when it is brought in. Along every run that does neither of the
last two to a document, its tightening stays in force (`tightening_kept`); a restart and a look at
the document are enough to lose it (`restart_loosens`).
-/

namespace LocalSpace

open Library

variable {H : Host} {d : DocId} {a : Acl} {p : Part} {s t : Core H}

namespace Core

/-- What the check takes a document to be tightened to. -/
@[grind =]
def inForce (c : Core H) (d : DocId) : Option Acl :=
  (c.access.document d).bind DocumentMeta.acl

/-- What the database records of a document's tightening. -/
@[grind =]
def recorded (c : Core H) (d : DocId) : Option Acl :=
  (c.store.getDocument d).bind DocumentRecord.acl

/-- No id drawn from now on is the one a document is named by. -/
@[grind =]
def Named (d : DocId) (c : Core H) : Prop :=
  ∀ n, c.reads ≤ n → d ≠ s!"doc_{H.uuid n}"

/-- A harness's document that is not loaded. -/
def Unloaded (d : DocId) (c : Core H) : Prop :=
  c.docs.exists? d = false ∧ ∃ r, c.store.getDocument d = some r ∧ r.harness.isSome = true

/-- A harness's document that is not loaded is after the message: its handling asked for the
document of that harness, in the document's workspace. -/
def BringsIn (d : DocId) (c : Core H) (m : Message) : Prop :=
  c.Unloaded d ∧ (c.step m).docs.exists? d = true

/-- A tightening recorded, and the one the check reads. -/
structure Tightened (d : DocId) (a : Acl) (c : Core H) : Prop where
  recorded : c.recorded d = some a
  inForce : c.inForce d = some a
  named : c.Named d

/-- A message of a run in which a document's tightening stays: it does not set it, exports no file
of the document's content, and unless it starts Core again it does not bring the document in. -/
structure Spares (d : DocId) (c : Core H) (m : Message) : Prop where
  unset : ∀ caller members, m = .request caller (.setDocumentAccess d members) →
    ((handleAs caller (.setDocumentAccess d members)).run c).1 ≠ .ok
  unexported : ∀ caller e, m = .request caller (.produceArtifact e) → e.blobDoc H ≠ d
  unbrought : (∀ cfg packages, m ≠ .restart cfg packages) → ¬c.BringsIn d m

end Core

/-! ### One act -/

/-- The kinds that write to what one document is tightened to, whatever it is named. -/
def Part.loosens (d : DocId) (p : Part) : Prop :=
  p = .tighten d ∨ p = .exported d

/-- The kinds that are of a document they name. -/
@[grind =]
def Part.names : Part → Bool
  | .tighten _ | .exported _ => true
  | _ => false

theorem Core.Named.mono (h : s.Named d) (hreads : s.reads ≤ t.reads) : t.Named d :=
  fun n hn => h n (hreads.trans hn)

/-- The document's record stays as it is. -/
theorem Act.getDocument (hp : p.plain = true) (hd : ¬p.loosens d) (h : Act p s t)
    (hs : s.Named d) : t.store.getDocument d = s.store.getDocument d := by
  by_cases hrecords : p.records = false
  · unfold Store.getDocument
    rw [(h.frame hp).records hrecords]
  have hput : ∀ (db : Store) id r, id ≠ d → (db.putDocument id r).getDocument d =
      db.getDocument d := fun db id r hne => AList.lookup_insert_ne hne.symm
  cases p <;> first | exact absurd rfl hrecords | skip
  case record =>
    obtain ⟨harness, title, kind, now, -, rfl⟩ := h
    exact hput _ _ _ (hs _ (Nat.le_refl _)).symm
  case exported doc =>
    obtain ⟨_, _, r, _, _, _, _, _, _, _, _, _, rfl⟩ := h
    exact hput _ _ _ fun heq => hd (.inr (by rw [heq]))
  case tighten doc =>
    obtain ⟨acl, access, -, rfl⟩ := h
    dsimp only
    split
    · exact hput _ _ _ fun heq => hd (.inl (by rw [heq]))
    · rfl

theorem Act.recorded (hp : p.plain = true) (hd : ¬p.loosens d) (h : Act p s t) (hs : s.Named d) :
    t.recorded d = s.recorded d := by
  unfold Core.recorded
  rw [h.getDocument hp hd hs]

/-- What is in force stays so, unless the document is brought in. -/
theorem Act.inForce (hp : p.plain = true) (hd : ¬p.loosens d) (h : Act p s t)
    (hs : s.Tightened d a) :
    t.inForce d = some a ∨ s.Unloaded d ∧ t.docs.exists? d = true := by
  by_cases hadmits : p.admits = false
  · left
    unfold Core.inForce AccessControl.document
    rw [(h.frame hp).admitted hadmits]
    exact hs.inForce
  have hadd : ∀ id w title acl, id ≠ d → (s.access.addDocument id w title acl).document d =
      s.access.document d := fun id w title acl hne =>
    AccessControl.document_addDocument_ne _ _ _ _ hne.symm
  have hforce := hs.inForce
  unfold Core.inForce at hforce ⊢
  cases p <;> first | exact absurd rfl hadmits | skip
  case bring =>
    obtain ⟨id, r, title, docs, _, _, hr, -, hharness, hunloaded, hloaded, _, _, _, rfl⟩ := h
    by_cases heq : id = d
    · subst heq
      exact .inr ⟨⟨hunloaded, r, hr, hharness⟩, hloaded⟩
    · left
      dsimp only
      rw [hadd _ _ _ _ heq]
      exact hforce
  case exported doc =>
    obtain ⟨_, _, _, _, _, _, _, _, _, _, _, _, rfl⟩ := h
    left
    dsimp only
    rw [hadd _ _ _ _ fun heq => hd (.inr (by rw [heq]))]
    exact hforce
  case load =>
    obtain ⟨id, r, hr, rfl⟩ := h
    left
    unfold loadDocument
    rw [run_modify]
    dsimp only
    by_cases heq : id = d
    · -- what the record says is what is registered
      subst heq
      have hrecorded := hs.recorded
      unfold Core.recorded at hrecorded
      rw [hr] at hrecorded
      rw [AccessControl.document_addDocument_self]
      exact hrecorded
    · rw [hadd _ _ _ _ heq]
      exact hforce
  case tighten doc =>
    obtain ⟨acl, access, haccess, rfl⟩ := h
    obtain ⟨m, -, rfl⟩ := AccessControl.setDocumentAcl_ok haccess
    have hne : d ≠ doc := fun heq => hd (.inl (by rw [heq]))
    left
    unfold AccessControl.document at hforce ⊢
    dsimp only
    rw [AList.lookup_insert_ne hne]
    exact hforce

namespace Core

theorem Tightened.congr {c t : Core H} (h : c.Tightened d a)
    (hrecords : t.store.documents = c.store.documents)
    (hadmitted : t.access.documents = c.access.documents) (hreads : c.reads ≤ t.reads) :
    t.Tightened d a := by
  refine ⟨?_, ?_, h.named.mono hreads⟩
  · unfold Core.recorded Store.getDocument
    rw [hrecords]
    exact h.recorded
  · unfold Core.inForce AccessControl.document
    rw [hadmitted]
    exact h.inForce

end Core

end LocalSpace
