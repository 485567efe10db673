import LocalSpace.Sample
import LocalSpace.Steps

/-!
# What a run proposes

A turn that ends closes its run: what the run wrote in workspaces where agents propose becomes
one proposal. It is made of the last commits alone and in the name of the server's own user, so
it is what it should be exactly where the turn is that user's and every document the run wrote
there has a commit of it among the last (`proposes_iff`); on a server people sign in to it never
is in the name of whose run it was (`proposal_misnamed`).
-/

namespace LocalSpace

open Library

variable {H : Host} {c : Core H} {run : String} {d : DocId}

namespace Core

/-- A run wrote a document of a workspace where agents propose. -/
def Wrote (c : Core H) (run : String) (d : DocId) : Prop :=
  c.access.agentWrites d = .proposal ∧ ∃ commit ∈ c.dag.all, commit.run = some run ∧ commit.doc = d

/-- One of a run's commits on a document is among the last. -/
def Recent (c : Core H) (run : String) (d : DocId) : Prop :=
  ∃ commit ∈ c.dag.history 256, commit.run = some run ∧ commit.doc = d

/-- Some proposals are those before and, where the run wrote anything where agents propose, one
more: the run's, in its person's name, of exactly the documents it wrote there. -/
def Proposed (c : Core H) (run : String) (user : UserId) (before after : List Proposal) : Prop :=
  ((∃ d, c.Wrote run d) → ∃ p, after = before ++ [p] ∧ p.run = run ∧ p.by_ = user ∧
    ∀ d, d ∈ p.docs ↔ c.Wrote run d) ∧
  ((¬∃ d, c.Wrote run d) → after = before)

theorem Recent.all (h : c.Recent run d) :
    ∃ commit ∈ c.dag.all, commit.run = some run ∧ commit.doc = d := by
  obtain ⟨commit, hmem, hrest⟩ := h
  exact ⟨commit, List.mem_of_mem_take hmem, hrest⟩

/-- The documents a closing run proposes: those of its last commits where agents propose. -/
def proposedDocs (c : Core H) (run : String) : List DocId :=
  (Dag.sortDedup (((c.dag.history 256).filter fun commit => commit.run = some run).map
    Commit.doc)).filter fun d => c.access.agentWrites d = .proposal

theorem mem_proposedDocs :
    d ∈ c.proposedDocs run ↔ c.access.agentWrites d = .proposal ∧ c.Recent run d := by
  unfold proposedDocs Recent
  rw [List.mem_filter, Dag.mem_sortDedup, List.mem_map]
  simp only [List.mem_filter, decide_eq_true_eq]
  constructor
  · rintro ⟨⟨commit, ⟨hmem, hrun⟩, hdoc⟩, hmode⟩
    exact ⟨hmode, commit, hmem, hrun, hdoc⟩
  · rintro ⟨hmode, commit, hmem, hrun, hdoc⟩
    exact ⟨⟨commit, ⟨hmem, hrun⟩, hdoc⟩, hmode⟩

/-- What a closing run says it did: the words of its last commits. -/
def summaryOf (c : Core H) (run : String) : String :=
  "; ".intercalate (((c.dag.history 256).filter fun commit => commit.run = some run).map
    Commit.diffSummary)

/-- The proposals a closing run adds. -/
@[grind =]
def proposing (c : Core H) (run : String) : List Proposal :=
  if c.proposedDocs run = [] then []
  else [⟨run, c.proposedDocs run, c.summaryOf run, c.cfg.user⟩]

/-- A run closed, from the state its plan is settled in. -/
private theorem propose_run (c : Core H) :
    ((do
      let c ← get
      let mine := (c.dag.history 256).filter fun commit => commit.run = some run
      let docs := (Dag.sortDedup (mine.map Commit.doc)).filter fun d =>
        c.access.agentWrites d = .proposal
      if !docs.isEmpty then
        let summary := "; ".intercalate (mine.map Commit.diffSummary)
        modify fun c => c.own fun u => { u with
          proposals := u.proposals ++ [⟨run, docs, summary, c.cfg.user⟩] }
        notice .info s!"1 proposal from your agent: {summary} — apply or discard it" :
        Program H Unit).run c).2.mine.proposals = c.mine.proposals ++ c.proposing run := by
  rw [run_bind, run_get]
  dsimp only
  unfold proposing
  split
  · next h =>
    have hdocs : (!(c.proposedDocs run).isEmpty) = true := h
    rw [if_neg (by simpa using hdocs)]
    rfl
  · next h =>
    have hdocs : ¬(!(c.proposedDocs run).isEmpty) = true := h
    rw [if_pos (by simpa using hdocs), List.append_nil]
    rfl

/-- A run closed: its proposals are the ones before and what it adds. -/
theorem finishRun_proposals (hrun : c.mine.run = some run) :
    (finishRun.run c).2.mine.proposals = c.mine.proposals ++ c.proposing run := by
  unfold finishRun
  rw [run_bind, run_get]
  dsimp only
  rw [hrun]
  dsimp only
  rw [run_bind, run_modify]
  dsimp only
  rw [run_bind, run_get]
  dsimp only
  split
  · exact propose_run _
  · exact propose_run _

theorem finishRun_active (c : Core H) : (finishRun.run c).2.active = c.active :=
  (finishRun_does c).frame Core.active fun p hp _ _ ha =>
    have hplain : p.plain = true ∧ p.switches = false := by
      clear ha
      revert p
      decide
    (Act.frame hplain.1 ha).active hplain.2

/-- An approval withdrawn changes what is asked of its user and the log alone. -/
private theorem withdraw_run (key : String) (c : Core H) :
    ((withdraw key).run c).2 = { c with
      mine := { c.mine with pending := c.mine.pending.erase key }
      events := ((withdraw key).run c).2.events } :=
  rfl

/-- What a turn's end leaves before its run is closed: all that a proposal is made of. -/
private def Closing (c t : Core H) : Prop :=
  t.dag = c.dag ∧ t.access = c.access ∧ t.cfg = c.cfg ∧ t.active = c.active ∧
    t.mine.run = c.mine.run ∧ t.mine.proposals = c.mine.proposals

private instance : IsPreorder (Core H) Closing where
  refl _ := ⟨rfl, rfl, rfl, rfl, rfl, rfl⟩
  trans _ _ _ h h' := ⟨h'.1.trans h.1, h'.2.1.trans h.2.1, h'.2.2.1.trans h.2.2.1,
    h'.2.2.2.1.trans h.2.2.2.1, h'.2.2.2.2.1.trans h.2.2.2.2.1,
    h'.2.2.2.2.2.trans h.2.2.2.2.2⟩

private theorem withdraw_closing (key : String) : Within Closing (withdraw (H := H) key) := by
  intro s
  rw [withdraw_run]
  exact ⟨rfl, rfl, rfl, rfl, rfl, rfl⟩

/-- A turn closed, of a person Core knows: the proposals after it are those before and what its
run adds, from the history as it was. -/
theorem closeTurn_proposals {turn : Turn} {st : UserState} (hbegun : turn.begun = true)
    (hst : c.stateOf turn.caller.user = some st) (hrun : st.run = some run) (how : TurnState) :
    ∃ after, ((closeTurn turn how).run c).2.stateOf turn.caller.user = some after ∧
      after.proposals = st.proposals ++ c.proposing run := by
  let c' : Core H := { c with turns := c.turns.filter fun t => t.id ≠ turn.id }
  have hst' : c'.stateOf turn.caller.user = some st := hst
  obtain ⟨st', hst'', hseated⟩ | ⟨hnone, -⟩ := activate_run turn.caller c'
  · obtain rfl : st = st' := Option.some.inj (hst'.symm.trans hst'')
    unfold closeTurn
    rw [run_bind, run_modify, run_bind]
    dsimp only
    rw [hseated, run_bind, run_get]
    dsimp only
    have hclosed : ∀ s : Core H, Closing (c'.seated turn.caller st) s →
        ∃ after, ((do
          finishRun
          emit (.assistantDone turn.conversation)
          emit (.turnChanged turn.conversation how) : Program H Unit).run s).2.stateOf
            turn.caller.user = some after ∧ after.proposals = st.proposals ++ c.proposing run := by
      rintro s ⟨hdag, haccess, hcfg, hactive, hmine, hproposals⟩
      have hfinish := finishRun_proposals (c := s) (hmine.trans hrun)
      have hstays := finishRun_active s
      refine ⟨_, if_pos ?_, ?_⟩
      · exact congrArg Caller.user (hstays.trans hactive)
      · refine hfinish.trans ?_
        rw [hproposals]
        refine congrArg (st.proposals ++ ·) ?_
        unfold proposing summaryOf proposedDocs
        rw [hdag, haccess, hcfg]
        rfl
    have hwithdrawn := (Within.forM fun key _ => withdraw_closing key : Within Closing
      (((c'.seated turn.caller st).approvalsOf turn.id).forM withdraw)) (c'.seated turn.caller st)
    rw [run_bind, if_pos hbegun]
    split
    · have hnotice : Within Closing (notice (H := H) .info
          "Stopped. The change that waited for your approval was not made.") :=
        fun s => ⟨rfl, rfl, rfl, rfl, rfl, rfl⟩
      exact hclosed _ (IsTrans.trans _ _ _ hwithdrawn (hnotice _))
    · exact hclosed _ hwithdrawn
  · rw [hst'] at hnone
    cases hnone

/-- **A turn's end proposes what its run did exactly where the turn is the server's own user's and
the run's commits are among the last**: one proposal in the name of the turn's user, of the
documents the run wrote where agents propose, whatever else was committed meanwhile. -/
theorem proposes_iff {turn : Turn} {st : UserState} (hbegun : turn.begun = true)
    (hst : c.stateOf turn.caller.user = some st) (hrun : st.run = some run) (how : TurnState) :
    (∃ after, ((closeTurn turn how).run c).2.stateOf turn.caller.user = some after ∧
      c.Proposed run turn.caller.user st.proposals after.proposals) ↔
      ∀ d, c.Wrote run d → c.cfg.user = turn.caller.user ∧ c.Recent run d := by
  obtain ⟨after, hafter, hproposals⟩ := closeTurn_proposals hbegun hst hrun how
  constructor
  · rintro ⟨after', hafter', hsome, -⟩ d hd
    obtain rfl : after = after' := Option.some.inj (hafter.symm.trans hafter')
    obtain ⟨p, heq, -, hby, hdocs⟩ := hsome ⟨d, hd⟩
    have hp : c.proposing run = [p] := List.append_cancel_left (hproposals.symm.trans heq)
    unfold proposing at hp
    split at hp
    · cases hp
    · cases hp
      exact ⟨hby, (mem_proposedDocs.1 ((hdocs d).2 hd)).2⟩
  · intro h
    have hwrote : ∀ d, d ∈ c.proposedDocs run ↔ c.Wrote run d := fun d =>
      ⟨fun hd => ⟨(mem_proposedDocs.1 hd).1, (mem_proposedDocs.1 hd).2.all⟩,
        fun hd => mem_proposedDocs.2 ⟨hd.1, (h d hd).2⟩⟩
    refine ⟨after, hafter, ?_, ?_⟩
    · rintro ⟨d, hd⟩
      have hne : c.proposedDocs run ≠ [] := List.ne_nil_of_mem ((hwrote d).2 hd)
      refine ⟨_, hproposals.trans (by rw [proposing, if_neg hne]), rfl, (h d hd).1, hwrote⟩
    · intro hnone
      have hempty : c.proposedDocs run = [] :=
        List.eq_nil_iff_forall_not_mem.2 fun d hd => hnone ⟨d, (hwrote d).1 hd⟩
      rw [hproposals, proposing, if_pos hempty, List.append_nil]

/-- On somebody's own computer their turn has written their notes. -/
def notesTurn : Core Sample.host :=
  (system Sample.host).run (.start Sample.computer [Sample.staged Sample.notes])
    [.request Sample.me (.sendMessage "hello" none []), .read 0 (Sample.calls "notes.set"),
      .posted 0]

theorem proposes_iff_written :
    let turn := notesTurn.turns.get ⟨0, by decide +kernel⟩
    let run := notesTurn.mine.run.getD ""
    (∃ after, ((closeTurn turn .done).run notesTurn).2.stateOf turn.caller.user = some after ∧
      notesTurn.Proposed run turn.caller.user notesTurn.mine.proposals after.proposals) ↔
      ∀ d, notesTurn.Wrote run d → notesTurn.cfg.user = turn.caller.user ∧ notesTurn.Recent run d :=
  proposes_iff (by decide +kernel) (if_pos (by decide +kernel)) (by decide +kernel) .done

/-- Ana's turn has written the notes of a workspace she shares. -/
def sharedTurn : List Message :=
  Sample.signUp ++ [.request Sample.ana (.createWorkspace "team"),
    .request Sample.ana (.selectWorkspace s!"ws_{Sample.unique 6}" none),
    .request Sample.ana (.sendMessage "hello" none []), .read 0 (Sample.calls "notes.set"),
    .posted 0]

/-- What it is to propose then is in the server's name, not in hers. -/
theorem proposal_misnamed : ¬∀ c : Core Sample.host, c.Reach (fun _ _ => True) →
    ∀ turn ∈ c.turns, turn.begun = true → ∀ st, c.stateOf turn.caller.user = some st →
      ∀ run, st.run = some run → ∀ how, ∃ after,
        ((closeTurn turn how).run c).2.stateOf turn.caller.user = some after ∧
          c.Proposed run turn.caller.user st.proposals after.proposals := by
  intro h
  let c := (system Sample.host).run (.start (Sample.server 1) [Sample.staged Sample.notes])
    sharedTurn
  have hreach : Reach (fun _ _ => True) c := ⟨_, _, System.runs_of_list (by decide +kernel)⟩
  have hsome : c.turns.isEmpty = false := by decide +kernel
  have hhers : ∀ turn ∈ c.turns, turn.begun = true ∧ c.active.user = turn.caller.user ∧
      c.cfg.user ≠ turn.caller.user := by decide +kernel
  have hrun : c.mine.run = some (c.mine.run.getD "") := by decide +kernel
  have hwrote : c.Wrote (c.mine.run.getD "") ((c.dag.all.head?.map Commit.doc).getD "") :=
    ⟨by decide +kernel, by decide +kernel⟩
  obtain ⟨turn, hturn⟩ := List.exists_mem_of_ne_nil _ (List.isEmpty_eq_false_iff.1 hsome)
  obtain ⟨hbegun, huser, hother⟩ := hhers turn hturn
  have hst : c.stateOf turn.caller.user = some c.mine := if_pos huser
  have hall := h c hreach turn hturn hbegun _ hst _ hrun .done
  exact hother ((proposes_iff hbegun hst hrun .done).1 hall _ hwrote).1

end Core

end LocalSpace
