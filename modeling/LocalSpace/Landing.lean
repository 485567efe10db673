import LocalSpace.Sample
import LocalSpace.Steps
import LocalSpace.Versions

/-!
# What an agent's call writes

The single mutation path, followed to what it leaves of the documents: a call that is not let
through leaves them alone (`callToolWith_cases`), one that is lets its harness be asked (`consult`) and
writes what it hands back (`applyOutput_writes`). Where agents propose the path is the same: an
agent's call leaves head and content as they were exactly where nothing it wrote would have
changed them (`holdsBack_iff`).
-/

namespace LocalSpace

open Library

variable {H : Host} {ps : List Part}

/-! ### What leaves the documents alone -/

/-- The documents and their history are as they were. -/
def Core.Untouched (s t : Core H) : Prop :=
  t.docs = s.docs ∧ t.dag = s.dag

instance : IsPreorder (Core H) Core.Untouched where
  refl _ := ⟨rfl, rfl⟩
  trans _ _ _ h h' := ⟨h'.1.trans h.1, h'.2.trans h.2⟩

/-- A kind of act that leaves the documents and their history. -/
def Part.sparing (p : Part) : Bool :=
  p.plain && !p.writes && !p.commits

theorem Act.untouched {p : Part} {s t : Core H} (ha : Act p s t) (hp : p.sparing = true) :
    s.Untouched t := by
  simp only [Part.sparing, Bool.and_eq_true, Bool.not_eq_true'] at hp
  have hframe := Act.frame hp.1.1 ha
  exact ⟨hframe.docs hp.1.2, hframe.dag hp.2⟩

/-- What goes by acts that leave the documents leaves them. -/
theorem spared {α : Type} {m : Program H α} (h : Within (Does Act ps) m)
    (hps : ps.all Part.sparing = true := by decide) : Within Core.Untouched m := by
  refine h.mono fun s t hst => hst.preserves (I := s.Untouched) (fun p hp u v ha hu => ?_)
    (Std.Refl.refl s)
  exact IsTrans.trans _ _ _ hu (ha.untouched (List.all_eq_true.1 hps p hp))

/-! ### A call that runs -/

/-- Ask a call's harness: what it answers, or how the call ends without an answer. -/
def consult (tool : String) (owner : HarnessId) (doc : DocId) (params : Json) :
    Program H (Except ToolOutcome HarnessOutput) := do
  let json := (← get).docs.json doc
  match ← resolveHandoff owner params with
  | .error reason => return .error (.denied reason)
  | .ok handoff =>
    match ← runLogic owner fun n => H.call n owner tool params handoff json with
    | .error e => return .error (.error e)
    | .ok (.error e) =>
      auditOn doc "tool.call" (.obj [("harness", .str owner), ("tool", .str tool)]) "error"
      return .error (.error e)
    | .ok (.ok out) =>
      out.logs.forM fun line => trace s!"[{owner}] {line}"
      if !out.ok then
        return .error (.error (out.error.getD "the harness reported a failure"))
      else return .ok out

/-- What a call does with its harness's answer. -/
@[grind =]
def settle (tool : String) (owner : HarnessId) (doc : DocId) (params : Json) (author : Author)
    (decl : ToolDecl) (out : HarnessOutput) : Program H ToolOutcome := do
  match ← applyOutput doc owner tool params author out with
  | .error e => return .error e
  | .ok (diffSummary, commit) => settleCall doc owner tool decl out diffSummary commit

theorem execute_eq (tool : String) (owner : HarnessId) (doc : DocId) (params : Json)
    (author : Author) (decl : ToolDecl) :
    (execute tool owner doc params author decl : Program H ToolOutcome) = (do
      match ← consult tool owner doc params with
      | .error o => return o
      | .ok out => settle tool owner doc params author decl out) := by
  unfold execute consult
  simp only [bind_assoc]
  refine congrArg _ (funext fun c => congrArg _ (funext fun r => ?_))
  cases r with
  | error reason => simp only [pure_bind]
  | ok handoff =>
    simp only [bind_assoc]
    refine congrArg _ (funext fun r => ?_)
    rcases r with e | e | out
    · simp only [pure_bind]
    · simp only [bind_assoc, pure_bind]
    · simp only [bind_assoc]
      refine congrArg _ (funext fun _ => ?_)
      cases out.ok
      · rfl
      · rfl

theorem consult_untouched (tool : String) (owner : HarnessId) (doc : DocId) (params : Json) :
    Within Core.Untouched (consult (H := H) tool owner doc params) := by
  refine spared (?_ : Within (Does Act [.note]) _)
  unfold consult
  refine Within.bind Within.get fun c => (resolveHandoff_does _ _ (by simp)).bind fun r => ?_
  split
  · exact Within.pure _
  · refine (runLogic_does _ _ (by simp)).bind fun r => ?_
    split
    · exact Within.pure _
    · exact (auditOn_does _ _ _ _ (by simp)).bind fun _ => Within.pure _
    · refine Within.bind (Within.forM fun _ _ => trace_does _ (by simp)) fun _ => ?_
      split <;> exact Within.pure _

/-! ### What a call's answer writes -/

namespace DocStore

theorem json_applyJson_ne (s : DocStore H) {doc d : DocId} (next : Json) (h : d ≠ doc) :
    (s.applyJson doc next).2.json d = s.json d := by
  unfold applyJson
  split
  · rfl
  · unfold json put
    rw [AList.lookup_insert_ne h]

end DocStore

/-- Reconciling a value into a document counts some change. -/
def Core.Counts (c : Core H) (doc : DocId) (next : Json) : Prop :=
  ∃ changes, (c.docs.applyJson doc next).1 = .ok changes ∧ changes.isEmpty = false

/-- Reconciling a value into a document changes it, or counts as a change. -/
def Core.Alters (c : Core H) (doc : DocId) (next : Json) : Prop :=
  (c.docs.applyJson doc next).2.json doc ≠ c.docs.json doc ∨ c.Counts doc next

/-- What the document became is in the store, and committed where it counts as a change. -/
structure Core.Reconciled (c t : Core H) (doc : DocId) (next : Json) : Prop where
  docs : t.docs = (c.docs.applyJson doc next).2
  kept : ¬c.Counts doc next → t.dag = c.dag
  committed : c.Counts doc next → ∃ e i a, e.doc = doc ∧ t.dag = (c.dag.commit H e i a).2

theorem applyOutput_writes {c : Core H} (doc : DocId) {out : HarnessOutput} {next : Json}
    (owner tool : String) (params : Json) (author : Author) (hout : out.doc = some next) :
    c.Reconciled ((applyOutput doc owner tool params author out).run c).2 doc next := by
  unfold applyOutput
  rw [hout]
  dsimp only
  unfold applyJson
  simp only [run_bind, run_get, run_modify, run_pure]
  cases happly : (c.docs.applyJson doc next).1 with
  | error e =>
    exact ⟨rfl, fun _ => rfl, fun ⟨_, hchanges, _⟩ => by rw [happly] at hchanges; cases hchanges⟩
  | ok changes =>
    dsimp only
    split
    · next hempty =>
      refine ⟨rfl, fun _ => rfl, fun ⟨_, hchanges, hne⟩ => ?_⟩
      rw [happly] at hchanges
      cases hchanges
      rw [hempty] at hne
      cases hne
    · next hne =>
      have htold : ∀ s : Core H, s.Untouched ((docChanged doc).run s).2 :=
        spared (docChanged_does doc)
      rw [run_bind]
      refine ⟨(htold _).1, fun h => absurd ⟨changes, happly, by simpa using hne⟩ h, fun _ => ?_⟩
      exact ⟨_, _, _, rfl, (htold _).2⟩

theorem settle_writes {c : Core H} {doc : DocId} {out : HarnessOutput} {next : Json}
    (tool : String) (owner : HarnessId) (params : Json) (author : Author) (decl : ToolDecl)
    (hout : out.doc = some next) :
    c.Reconciled ((settle tool owner doc params author decl out).run c).2 doc next := by
  have hwrites := applyOutput_writes (c := c) doc owner tool params author hout
  unfold settle
  rw [run_bind]
  split
  · exact hwrites
  · next diffSummary commit _ =>
    have hsettled := (spared (settleCall_does doc owner tool decl out diffSummary commit) :
      Within Core.Untouched _) ((applyOutput doc owner tool params author out).run c).2
    exact ⟨hsettled.1.trans hwrites.docs, fun h => hsettled.2.trans (hwrites.kept h), fun h => by
      obtain ⟨e, i, a, he, hdag⟩ := hwrites.committed h
      exact ⟨e, i, a, he, hsettled.2.trans hdag⟩⟩

theorem settle_untouched (doc : DocId) {out : HarnessOutput} (tool : String) (owner : HarnessId)
    (params : Json) (author : Author) (decl : ToolDecl) (hout : out.doc = none) :
    Within Core.Untouched (settle (H := H) tool owner doc params author decl out) := by
  unfold settle applyOutput
  rw [hout]
  exact spared (settleCall_does _ _ _ _ _ _ _)

/-- The head and the content of a document are as they were. -/
def Core.Still (c t : Core H) (d : DocId) : Prop :=
  t.dag.head d = c.dag.head d ∧ t.docs.json d = c.docs.json d

theorem Core.Untouched.still {s t : Core H} (h : s.Untouched t) (d : DocId) :
    s.Still t d :=
  ⟨by rw [h.2], by rw [h.1]⟩

/-- A document no commit of which is its own head. -/
def Core.FreshHead (c : Core H) (doc : DocId) : Prop :=
  ∀ tool docHash now, some (Dag.commitId H doc tool docHash (c.dag.head doc) now) ≠ c.dag.head doc

/-- What a call wrote leaves every document still exactly where it altered nothing. -/
theorem Core.Reconciled.still_iff {c t : Core H} {doc : DocId} {next : Json}
    (h : c.Reconciled t doc next) (hfresh : c.FreshHead doc) (d : DocId) :
    c.Still t d ↔ ¬(d = doc ∧ c.Alters doc next) := by
  by_cases hd : d = doc
  · subst hd
    simp only [true_and]
    unfold Core.Still Core.Alters
    rw [h.docs, not_or, not_not, and_comm]
    refine and_congr_right fun _ => ?_
    constructor
    · intro hhead hcounts
      obtain ⟨e, i, a, rfl, hdag⟩ := h.committed hcounts
      rw [hdag, Dag.head_commit_self] at hhead
      exact hfresh _ _ _ hhead
    · intro hcounts
      rw [h.kept hcounts]
  · simp only [hd, false_and, not_false_eq_true, iff_true]
    refine ⟨?_, ?_⟩
    · by_cases hcounts : c.Counts doc next
      · obtain ⟨e, i, a, rfl, hdag⟩ := h.committed hcounts
        rw [hdag, Dag.head_commit_ne _ _ _ hd]
      · rw [h.kept hcounts]
    · rw [h.docs, DocStore.json_applyJson_ne _ _ hd]

/-! ### What is let through -/

/-- Whether a call is let through: its harness is enabled, the caller holds what its tool needs,
its parameters are what the tool declares, and an agent's is in this turn's set and need not be
asked for. -/
def Core.lets (c : Core H) (tool : String) (params : Json) (author : Author) (owner : Installed)
    (doc : DocId) (decl : ToolDecl) : Bool :=
  owner.enabled && !(c.active.isViewer && decl.kind ≠ .read) &&
    !(author = .agent && !c.activeSet.tools.any fun t => t.name = tool) && c.may doc decl.need &&
    (H.validateParams decl.params params).isOk && !(decl.needsConfirm && author = .agent)

/-- A call is let through to its harness, or it leaves the documents alone. -/
theorem callOnWith_cases (exec : Executing H) (c : Core H) (tool : String) (params : Json)
    (author : Author) (owner : Installed) (doc : DocId) (decl : ToolDecl) :
    (c.lets tool params author owner doc decl = true ∧
      (callOnWith exec tool params author owner doc decl).run c =
        (exec tool owner.id doc params author decl).run c) ∨
    (c.lets tool params author owner doc decl = false ∧
      c.Untouched ((callOnWith exec tool params author owner doc decl).run c).2) := by
  have hnoted : ∀ {m : Program H ToolOutcome}, Within (Does Act [.note, .ask]) m →
      c.Untouched (m.run c).2 := fun hm => spared hm (by decide) c
  unfold Core.lets callOnWith
  rw [run_bind, run_get]
  dsimp only
  split
  · next henabled => exact .inr ⟨by simp_all, Std.Refl.refl c⟩
  · next henabled =>
    split
    · next hviewer => exact .inr ⟨by simp_all, hnoted (refuseReadOnly_does _ _ _ (by simp))⟩
    · next hviewer =>
      split
      · next hset => exact .inr ⟨by simp_all, Std.Refl.refl c⟩
      · next hset =>
        split
        · next hcheck =>
          have hmay : c.may doc decl.need = false := by
            simp [Core.may, AccessControl.allows, hcheck, Except.toBool]
          exact .inr ⟨by simp [hmay], hnoted ((auditOn_does _ _ _ _ (by simp)).bind fun _ =>
            Within.pure _)⟩
        · next hcheck =>
          have hmay : c.may doc decl.need = true := by
            simp [Core.may, AccessControl.allows, hcheck, Except.toBool]
          split
          · next hparams =>
            exact .inr ⟨by simp [hparams, Except.isOk, Except.toBool], Std.Refl.refl c⟩
          · next hparams =>
            split
            · next hconfirm => exact .inr ⟨by simp_all, hnoted (askApproval_does _ _ _ _ _)⟩
            · next hconfirm =>
              refine .inl ⟨?_, rfl⟩
              rw [hmay, hparams]
              have hset' : (author = .agent && !c.activeSet.tools.any fun t => t.name = tool) =
                  false := Bool.not_eq_true _ ▸ hset
              have hviewer' : (c.active.isViewer && decide (decl.kind ≠ .read)) = false :=
                Bool.not_eq_true _ ▸ hviewer
              have hconfirm' : (decl.needsConfirm && decide (author = .agent)) = false :=
                Bool.not_eq_true _ ▸ hconfirm
              rw [hset', hviewer', hconfirm']
              simpa [Except.isOk, Except.toBool] using henabled

namespace Core

/-- The harness a call is of, where its tool is not one of Core's own. -/
def calledHarness (c : Core H) (tool : String) : Option Installed :=
  if coreToolNames.contains tool then none else c.registry.ownerOf tool

/-- The document a call is on, and Core once it is brought in. -/
def calledOn (c : Core H) (tool : String) : Option DocId × Core H :=
  match c.calledHarness tool with
  | none => (none, c)
  | some owner => (docFor owner.id).run c

/-- A call is let through from the state its document is brought in: to its harness, on its
document, as what its tool is declared to be. -/
structure Reaches (c : Core H) (tool : String) (params : Json) (author : Author)
    (owner : Installed) (doc : DocId) (decl : ToolDecl) : Prop where
  harness : c.calledHarness tool = some owner
  document : (c.calledOn tool).1 = some doc
  declared : owner.tool tool = some decl
  lets : (c.calledOn tool).2.lets tool params author owner doc decl = true

/-- A call reaches one harness, on one document. -/
theorem Reaches.unique {c : Core H} {tool : String} {params : Json} {author : Author}
    {owner owner' : Installed} {doc doc' : DocId} {decl decl' : ToolDecl}
    (h : c.Reaches tool params author owner doc decl)
    (h' : c.Reaches tool params author owner' doc' decl') :
    owner' = owner ∧ doc' = doc ∧ decl' = decl := by
  obtain rfl := Option.some.inj (h'.harness.symm.trans h.harness)
  obtain rfl := Option.some.inj (h'.document.symm.trans h.document)
  exact ⟨rfl, rfl, Option.some.inj (h'.declared.symm.trans h.declared)⟩

/-- **A call is run on its document or leaves all documents alone.** -/
theorem callToolWith_cases (exec : Executing H) (c : Core H) (tool : String) (params : Json)
    (author : Author) :
    (∃ owner doc decl, c.Reaches tool params author owner doc decl ∧
      (callToolWith exec tool params author).run c =
        (exec tool owner.id doc params author decl).run (c.calledOn tool).2) ∨
    (¬∃ owner doc decl, c.Reaches tool params author owner doc decl) ∧
      (c.calledOn tool).2.Untouched ((callToolWith exec tool params author).run c).2 := by
  by_cases hcore : coreToolNames.contains tool = true
  · have hnone : c.calledHarness tool = none := if_pos hcore
    refine .inr ⟨fun ⟨owner, _, _, h⟩ => ?_, ?_⟩
    · have := hnone.symm.trans h.harness
      cases this
    · unfold calledOn callToolWith
      rw [hnone, run_bind, run_get]
      dsimp only
      rw [if_pos hcore]
      split
      · exact spared (refuseReadOnly_does _ _ _ (by simp) : Within (Does Act [.note]) _)
          (by decide) c
      · split
        · exact Std.Refl.refl c
        · exact spared (callCoreTool_does _ _) (by decide) c
  · have hcalled : c.calledHarness tool = c.registry.ownerOf tool := if_neg hcore
    cases howner : c.registry.ownerOf tool with
    | none =>
      rw [howner] at hcalled
      refine .inr ⟨fun ⟨owner, _, _, h⟩ => ?_, ?_⟩
      · have := hcalled.symm.trans h.harness
        cases this
      · unfold calledOn callToolWith
        rw [hcalled, run_bind, run_get]
        dsimp only
        rw [if_neg hcore, howner]
        dsimp only
        split <;> exact Std.Refl.refl c
    | some owner =>
      rw [howner] at hcalled
      have hon : c.calledOn tool = (docFor owner.id).run c := by
        unfold calledOn
        rw [hcalled]
      unfold callToolWith
      rw [run_bind, run_get]
      dsimp only
      rw [if_neg hcore, howner]
      dsimp only
      rw [run_bind, ← hon]
      cases hdoc : (c.calledOn tool).1 with
      | none =>
        refine .inr ⟨fun ⟨_, _, _, h⟩ => ?_, Std.Refl.refl _⟩
        have := hdoc.symm.trans h.document
        cases this
      | some doc =>
        dsimp only
        cases hdecl : owner.tool tool with
        | none =>
          refine .inr ⟨fun ⟨owner', _, _, h⟩ => ?_, Std.Refl.refl _⟩
          obtain rfl := Option.some.inj (hcalled.symm.trans h.harness)
          have := hdecl.symm.trans h.declared
          cases this
        | some decl =>
          dsimp only
          rcases callOnWith_cases exec (c.calledOn tool).2 tool params author owner doc decl with
            ⟨hlets, hcall⟩ | ⟨hlets, hcall⟩
          · exact .inl ⟨owner, doc, decl, ⟨hcalled, hdoc, hdecl, hlets⟩, hcall⟩
          · refine .inr ⟨fun ⟨owner', doc', decl', h⟩ => ?_, hcall⟩
            obtain rfl := Option.some.inj (hcalled.symm.trans h.harness)
            obtain rfl := Option.some.inj (hdoc.symm.trans h.document)
            obtain rfl := Option.some.inj (hdecl.symm.trans h.declared)
            have := hlets.symm.trans h.lets
            cases this

/-! ### Where agents propose -/

/-- After an agent's call the head and the content of every document of a workspace where agents
propose are as they were once the call's own was brought in. -/
def HoldsBack (c : Core H) (tool : String) (params : Json) : Prop :=
  ∀ d, (c.calledOn tool).2.access.agentWrites d = .proposal →
    (c.calledOn tool).2.Still ((callTool tool params .agent).run c).2 d

/-- An agent's call on a document of a workspace where agents propose is let through, and its
harness hands back one that is changed. -/
def Lands (c : Core H) (tool : String) (params : Json) : Prop :=
  ∃ owner doc decl, c.Reaches tool params .agent owner doc decl ∧
    (c.calledOn tool).2.access.agentWrites doc = .proposal ∧
      ∃ out, ((consult tool owner.id doc params).run (c.calledOn tool).2).1 = .ok out ∧
        ∃ next, out.doc = some next ∧ (c.calledOn tool).2.Alters doc next

/-- What an execution leaves still, from the answer of its harness. -/
theorem execute_still_iff {c : Core H} {doc : DocId} (hfresh : c.FreshHead doc) (tool : String)
    (owner : HarnessId) (params : Json) (author : Author) (decl : ToolDecl) (d : DocId) :
    c.Still ((execute tool owner doc params author decl).run c).2 d ↔
      ¬(d = doc ∧ ∃ out, ((consult tool owner doc params).run c).1 = .ok out ∧
        ∃ next, out.doc = some next ∧ c.Alters doc next) := by
  have hconsult := consult_untouched tool owner doc params c
  rw [execute_eq, run_bind]
  split
  · next o hr =>
    refine iff_of_true (hconsult.still d) ?_
    rintro ⟨-, out, hout, -⟩
    rw [hr] at hout
    cases hout
  · next out hr =>
    let t := ((consult tool owner doc params).run c).2
    have hsame : ∀ u : Core H, t.Still u d ↔ c.Still u d := fun u => by
      unfold Still
      rw [hconsult.1, hconsult.2]
    cases hout : out.doc with
    | none =>
      have hsettled := (settle_untouched doc tool owner params author decl hout t).still d
      refine iff_of_true ((hsame _).1 hsettled) ?_
      rintro ⟨-, out', hout', next, hnext, -⟩
      rw [hr] at hout'
      cases hout'
      rw [hout] at hnext
      cases hnext
    | some next =>
      have hfresh' : t.FreshHead doc := by
        unfold FreshHead
        rw [hconsult.2]
        exact hfresh
      have halters : t.Alters doc next ↔ c.Alters doc next := by
        unfold Alters Counts
        rw [hconsult.1]
      refine (hsame _).symm.trans
        (((settle_writes tool owner params author decl hout).still_iff hfresh' d).trans ?_)
      rw [halters, hr]
      constructor
      · rintro h ⟨rfl, out', hout', next', hnext', h'⟩
        cases hout'
        rw [hout] at hnext'
        cases hnext'
        exact h ⟨rfl, h'⟩
      · rintro h ⟨rfl, h'⟩
        exact h ⟨rfl, out, rfl, next, hout, h'⟩

/-- **Where agents propose an agent's call writes nothing exactly where it does not land**: it is
refused, or waits for its person, or its harness hands back no document or one that changes
nothing. That the workspace is one where agents propose makes no difference to it. -/
theorem holdsBack_iff {c : Core H} {tool : String} {params : Json}
    (hfresh : ∀ doc, (c.calledOn tool).1 = some doc → (c.calledOn tool).2.FreshHead doc) :
    c.HoldsBack tool params ↔ ¬c.Lands tool params := by
  unfold HoldsBack
  rw [callTool]
  rcases callToolWith_cases execute c tool params .agent with
    ⟨owner, doc, decl, hreaches, hrun⟩ | ⟨hnone, huntouched⟩
  · rw [hrun]
    have hstill := execute_still_iff (hfresh doc hreaches.document) tool owner.id params .agent decl
    constructor
    · rintro h ⟨owner', doc', decl', hreaches', hmode, hout⟩
      obtain ⟨rfl, rfl, rfl⟩ := hreaches.unique hreaches'
      exact (hstill _).1 (h _ hmode) ⟨rfl, hout⟩
    · intro h d hmode
      refine (hstill d).2 ?_
      rintro ⟨rfl, hout⟩
      exact h ⟨owner, d, decl, hreaches, hmode, hout⟩
  · refine iff_of_true (fun d _ => huntouched.still d) ?_
    rintro ⟨owner, doc, decl, hreaches, -⟩
    exact hnone ⟨owner, doc, decl, hreaches⟩

/-- Ana's turn has asked to write the notes of a workspace she shares. -/
def sharedAsked : Core Sample.host :=
  (system Sample.host).run (.start (Sample.server 1) [Sample.staged Sample.notes])
    (Sample.signUp ++ [.request Sample.ana (.createWorkspace "team"),
      .request Sample.ana (.selectWorkspace s!"ws_{Sample.unique 6}" none),
      .request Sample.ana (.sendMessage "hello" none []), .read 0 (Sample.calls "notes.set")])

theorem holdsBack_iff_asked : sharedAsked.HoldsBack "notes.set" (.obj []) ↔
    ¬sharedAsked.Lands "notes.set" (.obj []) := by
  refine holdsBack_iff fun doc hdoc tool docHash now => ?_
  have hnone : (sharedAsked.calledOn "notes.set").1.all (fun d =>
      (sharedAsked.calledOn "notes.set").2.dag.head d = none) = true := by decide +kernel
  rw [hdoc] at hnone
  rw [show (sharedAsked.calledOn "notes.set").2.dag.head doc = none by simpa using hnone]
  nofun

/-- The call then becomes the head of the notes that are shared. -/
theorem agent_lands : ¬∀ c : Core Sample.host, c.Reach (fun _ _ => True) →
    ∀ tool params, c.HoldsBack tool params := by
  intro h
  have hreach : Reach (fun _ _ => True) sharedAsked :=
    ⟨_, _, System.runs_of_list (by decide +kernel)⟩
  let d := (sharedAsked.calledOn "notes.set").1.getD ""
  have hstill := h sharedAsked hreach "notes.set" (.obj []) d (by decide +kernel)
  exact absurd hstill.1 (by decide +kernel)

end Core

end LocalSpace
