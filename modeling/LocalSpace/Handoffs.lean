import LocalSpace.Landing

/-!
# What a handoff hands over

A call that names an artifact is handed the content of the document the artifact is of. What the
handoff asks is whether the ledger has the artifact, whether the harness takes its kind and
whether the version it is pinned to is there; whether the caller may still view the document is
not asked. So a call is handed what its caller may view exactly where the artifact that would be
handed over is of such a document (`respects_iff`), and a document tightened since it came into
the ledger is handed over all the same (`tightened_handed`).
-/

namespace LocalSpace

open Library

variable {H : Host} {c : Core H} {owner : HarnessId} {params : Json} {id : String}
  {art : Artifact} {d : DocId}

namespace Core

/-- A call's parameters name an artifact of the caller's ledger. -/
def Names (c : Core H) (params : Json) (art : Artifact) : Prop :=
  ∃ id, (params.get? "artifact").bind Json.asStr = some id ∧
    (c.mine.task.artifacts.find? fun a => a.id = id) = some art

/-- A harness is handed the content of a document, for a call that names an artifact of it. -/
def HandsOver (c : Core H) (owner : HarnessId) (params : Json) (d : DocId) : Prop :=
  ∃ art, c.Names params art ∧ art.doc = d ∧ ∃ content, c.artifactContent art = .ok content ∧
    ((resolveHandoff owner params).run c).1 =
      .ok [(art.id, H.render (handoffPayload art content))]

/-- What a call's harness is handed is of documents the caller may view. -/
def Respects (c : Core H) (owner : HarnessId) (params : Json) : Prop :=
  ∀ d, c.HandsOver owner params d → c.may d .view = true

/-- A harness takes artifacts of a kind. -/
@[grind =]
def takes (c : Core H) (owner : HarnessId) (kind : String) : Bool :=
  (((c.registry.get owner).map Installed.accepts).getD []).contains kind

/-- An artifact that is named is handed over where the harness takes its kind and its content is
there; otherwise the call is refused. -/
theorem resolveHandoff_named (owner : HarnessId) (h : c.Names params art) :
    (∃ content, c.takes owner art.kind = true ∧ c.artifactContent art = .ok content ∧
      ((resolveHandoff owner params).run c).1 =
        .ok [(art.id, H.render (handoffPayload art content))]) ∨
    (c.takes owner art.kind = false ∨ ∃ e, c.artifactContent art = .error e) ∧
      ∃ e, ((resolveHandoff owner params).run c).1 = .error e := by
  obtain ⟨id, hid, hfound⟩ := h
  unfold resolveHandoff
  rw [hid]
  dsimp only
  rw [run_bind, run_get]
  dsimp only
  unfold namedArtifact
  rw [hfound]
  dsimp only
  cases htakes : c.takes owner art.kind with
  | false =>
    have hkind : (((c.registry.get owner).map Installed.accepts).getD []).contains art.kind =
        false := htakes
    rw [if_neg (by rw [hkind]; simp)]
    exact .inr ⟨.inl rfl, _, rfl⟩
  | true =>
    have hkind : (((c.registry.get owner).map Installed.accepts).getD []).contains art.kind =
        true := htakes
    rw [if_pos hkind]
    dsimp only
    rw [run_bind, run_get]
    dsimp only
    cases hcontent : c.artifactContent art with
    | error e => exact .inr ⟨.inr ⟨e, rfl⟩, _, rfl⟩
    | ok content => exact .inl ⟨content, rfl, rfl, rfl⟩

/-- **A handoff respects access exactly where what it hands over may be viewed**: the caller holds
view on the document of the artifact their call names, or the harness does not take its kind, or
the version it is pinned to is not there. -/
theorem respects_iff (c : Core H) (owner : HarnessId) (params : Json) :
    c.Respects owner params ↔ ∀ art, c.Names params art →
      c.may art.doc .view = true ∨ c.takes owner art.kind = false ∨
        ∃ e, c.artifactContent art = .error e := by
  constructor
  · intro h art hnames
    rcases resolveHandoff_named owner hnames with
      ⟨content, -, hcontent, hrun⟩ | ⟨hrefused, -⟩
    · exact .inl (h art.doc ⟨art, hnames, rfl, content, hcontent, hrun⟩)
    · exact .inr hrefused
  · rintro h d ⟨art, hnames, rfl, content, hcontent, hrun⟩
    rcases h art hnames with hview | hrefused
    · exact hview
    · rcases resolveHandoff_named owner hnames with
        ⟨content', htakes, hcontent', -⟩ | ⟨-, e, herror⟩
      · rcases hrefused with hkind | ⟨e, herror⟩
        · rw [htakes] at hkind
          cases hkind
        · rw [hcontent'] at herror
          cases herror
      · rw [hrun] at herror
        cases herror

/-- A harness that takes notes. -/
def readers : Installed :=
  { Sample.sheets with accepts := ["note"] }

/-- The first administrator of a server with two packages, and whose account she makes. -/
def eve : Caller :=
  Sample.person 5 [.admin]

def finn : Caller :=
  Sample.person 7 [.member]

/-- Finn exports a note in a workspace Eve shares with him; she tightens it to herself. -/
def noteTightened : Core Sample.host :=
  (system Sample.host).run
    (.start (Sample.server 1) [Sample.staged Sample.notes, Sample.staged readers])
    [.system (.firstAdmin "eve@x"), .request eve (.createUser "finn@x" [.member]),
      .request eve (.createWorkspace "team"),
      .request eve (.setMember s!"ws_{Sample.unique 8}" (.user finn.user) .edit),
      .request finn (.selectWorkspace s!"ws_{Sample.unique 8}" none),
      .request finn (.produceArtifact ⟨"notes", "page", "note", "note", "text/plain", [1],
        .obj [], "a note"⟩),
      .request eve (.setDocumentAccess (Export.blobId (Sample.digest [1]))
        (some [⟨.user eve.user, .owner⟩]))]

/-- Finn's call then has it handed to the harness that takes notes. -/
theorem tightened_handed : ¬∀ c : Core Sample.host, c.Reach (fun _ _ => True) →
    ∀ caller, c.SignedIn caller → ∀ tool params owner doc decl,
      (c.entered caller).Reaches tool params .user owner doc decl →
        ((c.entered caller).calledOn tool).2.Respects owner.id params := by
  intro h
  let c := noteTightened.entered finn
  let params : Json := .obj [("artifact", .str "art_1")]
  let brought := (c.calledOn "sheets.set").2
  have hreach : Reach (fun _ _ => True) noteTightened :=
    ⟨_, _, System.runs_of_list (by decide +kernel)⟩
  have hcalled : ((c.calledHarness "sheets.set").any fun owner =>
      owner.id = "sheets" && (c.calledOn "sheets.set").1.any fun doc =>
        (owner.tool "sheets.set").any fun decl =>
          brought.lets "sheets.set" params .user owner doc decl) = true := by decide +kernel
  obtain ⟨owner, howner, hcalled⟩ := (Option.any_eq_true _ _).1 hcalled
  obtain ⟨hid, hcalled⟩ := Bool.and_eq_true_iff.1 hcalled
  obtain ⟨doc, hdoc, hcalled⟩ := (Option.any_eq_true _ _).1 hcalled
  obtain ⟨decl, hdecl, hlets⟩ := (Option.any_eq_true _ _).1 hcalled
  have hrespects := h noteTightened hreach finn (by decide +kernel) "sheets.set" params owner
    doc decl ⟨howner, hdoc, hdecl, hlets⟩
  have hnamed : ((brought.mine.task.artifacts.find? fun a => a.id = "art_1").any fun art =>
      !brought.may art.doc .view && brought.takes "sheets" art.kind &&
        (brought.artifactContent art).toBool) = true := by decide +kernel
  obtain ⟨art, hart, hnamed⟩ := (Option.any_eq_true _ _).1 hnamed
  simp only [Bool.and_eq_true, Bool.not_eq_true'] at hnamed
  have hid : owner.id = "sheets" := by simpa using hid
  rw [hid] at hrespects
  rcases (respects_iff brought "sheets" params).1 hrespects art ⟨"art_1", rfl, hart⟩ with
    hview | hkind | ⟨e, herror⟩
  · rw [hnamed.1.1] at hview
    cases hview
  · rw [hnamed.1.2] at hkind
    cases hkind
  · rw [herror] at hnamed
    exact absurd hnamed.2 (by simp [Except.toBool])

end Core

end LocalSpace
