import LocalSpace.Installs

/-!
# What a capability diff shows

`manifest.rs`'s `widening_over` against what capabilities allow: files, hosts, the card,
subprocesses, the clipboard, documents and model calls, each a set of uses. An empty diff means no
new use but for a card taken for itself alone, which the diff does not look at; and a set that
allows less than the old one has an empty diff where its file scope, its clipboard and its hosts are
the old ones or none. -/

namespace LocalSpace.Installs

/-- One use a package may make of the computer. -/
inductive Use where
  | file (path : String)
  | host (name : String)
  | gpu (gb : ℕ) (exclusive : Bool)
  | spawn
  /-- The clipboard, at a user's action or unasked. -/
  | clipboard (unasked : Bool)
  | documents
  | infer (call : ModelCap)

/-- The files within a scope: all of the workspace, or what is under one path. -/
@[grind =]
def FsCap.allows : FsCap → String → Prop
  | .none, _ => False
  | .workspace, _ => True
  | .scoped path, file => file = path ∨ (path ++ "/").toList <+: file.toList

/-- `net_fetch`'s own gate: a host of the list, or one under it. -/
@[grind =]
def NetCap.allows (cap : NetCap) (name : String) : Prop :=
  ∃ host ∈ cap.hosts, name = host ∨ ("." ++ host).toList <:+ name.toList

namespace GpuCap

def exclusive : GpuCap → Bool
  | off _ => false
  | request _ exclusive => exclusive

@[grind =]
def allows (cap : GpuCap) (gb : ℕ) (alone : Bool) : Prop :=
  cap.wanted = true ∧ gb ≤ cap.vramGb ∧ (alone = true → cap.exclusive = true)

end GpuCap

@[grind =]
def ClipboardCap.allows : ClipboardCap → Bool → Prop
  | .none, _ => False
  | .onUserAction, unasked => unasked = false
  | .always, _ => True

namespace Capabilities

/-- What a set of capabilities allows. -/
@[grind =]
def allows (c : Capabilities) : Use → Prop
  | .file path => c.fs.allows path
  | .host name => c.net.allows name
  | .gpu gb exclusive => c.gpu.allows gb exclusive
  | .spawn => c.spawn = true
  | .clipboard unasked => c.clipboard.allows unasked
  | .documents => c.docs = .acl
  | .infer call => call ∈ c.model

/-- The new set allows nothing the old one did not: it is a narrowing in every part. -/
def Narrows (c prev : Capabilities) : Prop :=
  ∀ use, c.allows use → prev.allows use

/-- What the diff looks at, part by part. -/
structure Within (c prev : Capabilities) : Prop where
  fs : c.fs = prev.fs ∨ c.fs = .none
  hosts : ∀ host ∈ c.net.hosts, host ∈ prev.net.hosts
  gpu : c.gpu.wanted = true → prev.gpu.wanted = true ∧ c.gpu.vramGb ≤ prev.gpu.vramGb
  spawn : c.spawn = true → prev.spawn = true
  clipboard : c.clipboard = prev.clipboard ∨ c.clipboard = .none
  docs : c.docs = prev.docs ∨ c.docs = .none
  model : ∀ call ∈ c.model, call ∈ prev.model

end Capabilities

theorem line_eq_nil {p : Prop} [Decidable p] {text : String} : line p text = [] ↔ ¬p := by
  simp [line]

namespace Capabilities

variable {c prev : Capabilities}

theorem wideningOver_eq_nil : c.wideningOver prev = [] ↔ c.Within prev := by
  simp only [wideningOver, List.append_eq_nil_iff, line_eq_nil, List.map_eq_nil_iff,
    List.filter_eq_nil_iff, ne_eq, not_and_or, not_not, not_or, Bool.not_eq_true',
    List.contains_eq_mem, decide_eq_false_iff_not, Bool.not_eq_true, Bool.not_eq_false, not_lt]
  constructor
  · rintro ⟨⟨⟨⟨⟨⟨hfs, hhosts⟩, hgpu⟩, hspawn⟩, hclipboard⟩, hdocs⟩, hmodel⟩
    refine ⟨hfs, hhosts, fun hwanted => ?_, fun hon => ?_, hclipboard, hdocs, hmodel⟩
    · rcases hgpu with hoff | hboth
      · rw [hoff] at hwanted
        contradiction
      · exact hboth
    · rcases hspawn with hoff | hon'
      · rw [hoff] at hon
        contradiction
      · exact hon'
  · intro h
    refine ⟨⟨⟨⟨⟨⟨h.fs, h.hosts⟩, ?_⟩, ?_⟩, h.clipboard⟩, h.docs⟩, h.model⟩
    · rcases hwanted : c.gpu.wanted with _ | _
      · exact Or.inl rfl
      · exact Or.inr (h.gpu hwanted)
    · rcases hon : c.spawn with _ | _
      · exact Or.inl rfl
      · exact Or.inr (h.spawn hon)

/-- A diff that is empty hides at most a card taken alone. -/
theorem Within.narrows (h : c.Within prev)
    (hgpu : c.gpu.exclusive = true → prev.gpu.exclusive = true) : c.Narrows prev := by
  rintro (path | name | ⟨gb, alone⟩ | _ | unasked | _ | call) hallows
  · rcases h.fs with heq | heq
    · exact (congrArg (FsCap.allows · path) heq).mp hallows
    · have hnone : FsCap.allows .none path := heq ▸ hallows
      exact hnone.elim
  · obtain ⟨host, hhost, hname⟩ := hallows
    exact ⟨host, h.hosts host hhost, hname⟩
  · obtain ⟨hwanted, hgb, halone⟩ := hallows
    obtain ⟨hwanted', hle⟩ := h.gpu hwanted
    exact ⟨hwanted', hgb.trans hle, fun hon => hgpu (halone hon)⟩
  · exact h.spawn hallows
  · rcases h.clipboard with heq | heq
    · exact (congrArg (ClipboardCap.allows · unasked) heq).mp hallows
    · have hnone : ClipboardCap.allows .none unasked := heq ▸ hallows
      exact hnone.elim
  · rcases h.docs with heq | heq
    · exact heq.symm.trans hallows
    · have hnone : DocsCap.none = DocsCap.acl := heq ▸ hallows
      cases hnone
  · exact h.model call hallows

/-- A card is taken alone only where it was, in a narrowing. -/
theorem Narrows.exclusive (h : c.Narrows prev) (hon : c.gpu.exclusive = true) :
    prev.gpu.exclusive = true := by
  have hwanted : c.gpu.wanted = true := by
    rcases hgpu : c.gpu with on | ⟨gb, alone⟩
    · rw [hgpu] at hon
      contradiction
    · rfl
  exact (h (.gpu 0 true) ⟨hwanted, Nat.zero_le _, fun _ => hon⟩).2.2 rfl

/-- A narrowing is within the old set, as the diff looks at it, but for the file scope, the hosts
and the clipboard. -/
theorem Narrows.within (h : c.Narrows prev) (hfs : c.fs = prev.fs ∨ c.fs = .none)
    (hhosts : ∀ host ∈ c.net.hosts, host ∈ prev.net.hosts)
    (hclipboard : c.clipboard = prev.clipboard ∨ c.clipboard = .none) : c.Within prev where
  fs := hfs
  hosts := hhosts
  gpu hwanted := by
    have hmost := h (.gpu c.gpu.vramGb false) ⟨hwanted, le_refl _, by simp⟩
    exact ⟨hmost.1, hmost.2.1⟩
  spawn := h .spawn
  clipboard := hclipboard
  docs := by
    rcases hdocs : c.docs with _ | _
    · exact Or.inr rfl
    · exact Or.inl (h .documents hdocs).symm
  model call := h (.infer call)

/-- **The diff hides nothing, and shows only widenings**, exactly where a card is newly taken alone
only together with something the diff does look at, and a narrowing keeps its file scope and its
clipboard, or drops them, and names only hosts the old set named. -/
theorem diff_exact_iff (c prev : Capabilities) :
    (c.wideningOver prev = [] ↔ ∀ use, c.allows use → prev.allows use) ↔
      (c.gpu.exclusive = true → prev.gpu.exclusive = true ∨ ¬c.Within prev) ∧
      ((∀ use, c.allows use → prev.allows use) →
        (c.fs = prev.fs ∨ c.fs = .none) ∧
        (∀ host ∈ c.net.hosts, host ∈ prev.net.hosts) ∧
        (c.clipboard = prev.clipboard ∨ c.clipboard = .none)) := by
  rw [wideningOver_eq_nil]
  constructor
  · intro h
    refine ⟨fun hon => ?_, fun hnarrows => ?_⟩
    · by_cases hwithin : c.Within prev
      · exact Or.inl (Narrows.exclusive (h.mp hwithin) hon)
      · exact Or.inr hwithin
    · have hwithin := h.mpr hnarrows
      exact ⟨hwithin.fs, hwithin.hosts, hwithin.clipboard⟩
  · rintro ⟨hgpu, hparts⟩
    refine ⟨fun hwithin => hwithin.narrows fun hon => ?_, fun hnarrows => ?_⟩
    · exact (hgpu hon).resolve_right fun hnot => hnot hwithin
    · obtain ⟨hfs, hhosts, hclipboard⟩ := hparts hnarrows
      exact Narrows.within hnarrows hfs hhosts hclipboard

/-- A shared card taken alone goes unshown, and a workspace narrowed to one directory is shown. -/
theorem diff_not_exact :
    let shared : Capabilities := { gpu := .request 24 false }
    let alone : Capabilities := { gpu := .request 24 true }
    let workspace : Capabilities := { fs := .workspace }
    let notes : Capabilities := { fs := .scoped "notes" }
    (alone.wideningOver shared = [] ∧ alone.allows (.gpu 24 true) ∧
        ¬shared.allows (.gpu 24 true)) ∧
      notes.wideningOver workspace ≠ [] ∧ ∀ use, notes.allows use → workspace.allows use := by
  intro shared alone workspace notes
  refine ⟨⟨wideningOver_eq_nil.mpr ?_, ?_, ?_⟩, ?_, ?_⟩
  · exact ⟨Or.inl rfl, by simp [shared, alone], fun _ => ⟨rfl, le_refl _⟩, by simp [shared, alone],
      Or.inl rfl, Or.inl rfl, by simp [shared, alone]⟩
  · exact ⟨rfl, le_refl _, fun _ => rfl⟩
  · intro hallows
    have halone := hallows.2.2 rfl
    contradiction
  · intro hnil
    rcases (wideningOver_eq_nil.mp hnil).fs with heq | heq <;> contradiction
  · rintro (path | name | ⟨gb, on⟩ | _ | unasked | _ | call) hallows
    · trivial
    all_goals exact hallows

end Capabilities

end LocalSpace.Installs
