import LocalSpace.Library.Programs
import LocalSpace.Sample
import LocalSpace.Exposure

/-!
# The provider cache

`context.rs`'s `assemble`, over calls of it with one cache, where what a provider says is a function
of the harness, the budget, whether it is focused and the document. What is kept is told apart by the
harness, the document and the budget, not by the focus: each call gives the blocks it would give with
an empty cache where no provider that said something is asked again, of the same document at the same
budget, with the other focus, and says something else.
-/

namespace LocalSpace.Providers

open Library

variable {H : Host}

/-- What a harness is asked. -/
structure Ask where
  harness : HarnessId
  budget : ℕ
  focused : Bool
  document : Json

/-- What harnesses say: of the budget, the focus and the document alone. -/
abbrev Said := HarnessId → ℕ → Bool → Json → Except String (String × Bool)

/-- What a document is told apart by. -/
def hashOf (H : Host) (document : Json) : String :=
  ((H.blake3 (utf8 (H.render document))).take 16).toString

def Ask.key (H : Host) (a : Ask) : HarnessId × String × ℕ :=
  (a.harness, hashOf H a.document, a.budget)

/-- The block of an ask, where anything is said. -/
def blockOf (H : Host) (said : Said) (a : Ask) : Option ContextBlock :=
  let answer := providerSaid (said a.harness a.budget a.focused a.document)
  if (trim answer.1).isEmpty then none
  else
    let text := H.truncateToBudget answer.1 a.budget
    some ⟨a.harness, text, H.estimateTokens text, answer.2⟩

/-- What is kept. -/
abbrev Cache := List ((HarnessId × String × ℕ) × ContextBlock)

/-- One call of `assemble`: Core as it is then, its cache apart, what is pinned and touched, and the
harnesses' documents. -/
structure Call (H : Host) where
  core : Core H
  also : List HarnessId
  docIds : List (HarnessId × DocId)

namespace Call

variable (call : Call H)

/-- What a call gives, and Core after it, with what is kept. -/
@[grind =]
def made (kept : Cache) : List ContextBlock × Core H :=
  (assemble call.docIds
    (wantedBlocks call.core.cfg.profile call.core.mine.focus call.also) 0).run
      { call.core with providers := kept }

end Call

/-- What calls give one after another, with what is kept. -/
def gives : Cache → List (Call H) → List (List ContextBlock)
  | _, [] => []
  | kept, call :: rest => (call.made kept).1 :: gives (call.made kept).2.providers rest

section Asks

variable (said : Said)

/-- What is asked, with nothing kept. -/
def asksFrom (c : Core H) (docIds : List (HarnessId × DocId)) :
    List (HarnessId × ℕ) → ℕ → List Ask
  | [], _ => []
  | (id, budget) :: rest, spent =>
    if c.cfg.profile.contextBudgetTokens ≤ spent then []
    else
      match (c.registry.get id).filter fun h => h.enabled && h.contextProvider,
          docIds.lookup id with
      | some _, some doc =>
        let a : Ask := ⟨id, min budget (c.cfg.profile.contextBudgetTokens - spent),
          some id = c.mine.focus, c.docs.json doc⟩
        a :: asksFrom c docIds rest (spent + ((blockOf H said a).map (·.tokens)).getD 0)
      | _, _ => asksFrom c docIds rest spent

def Call.asks (call : Call H) : List Ask :=
  asksFrom said call.core call.docIds
    (wantedBlocks call.core.cfg.profile call.core.mine.focus call.also) 0

end Asks

/-- What is kept is what asks were answered. -/
@[grind =]
def Kept (H : Host) (said : Said) (kept : Cache) (asked : List Ask) : Prop :=
  ∀ key block, kept.lookup key = some block → ∃ a ∈ asked, a.key H = key ∧
    blockOf H said a = some block

/-- What was said of a document at a budget is said of it again, focused or not. -/
def Steady (H : Host) (said : Said) (asked later : List Ask) : Prop :=
  ∀ a ∈ asked, ∀ a' ∈ later, a.harness = a'.harness → a.budget = a'.budget →
    a.document = a'.document → a.focused ≠ a'.focused → blockOf H said a ≠ none →
      blockOf H said a' = blockOf H said a

/-- No two documents that are asked about have one hash. -/
def Told (H : Host) (asked : List Ask) : Prop :=
  ∀ a ∈ asked, ∀ a' ∈ asked, hashOf H a.document = hashOf H a'.document → a.document = a'.document

section Run

variable {said : Said}

theorem contextBlock_run (hsaid : ∀ n id budget focused doc,
    H.context n id budget focused doc = said id budget focused doc) (c : Core H) (id : HarnessId)
    (doc : DocId) (budget : ℕ) (focused : Bool) :
    (contextBlock id doc budget focused).run c =
      match c.providers.lookup ((⟨id, budget, focused, c.docs.json doc⟩ : Ask).key H) with
      | some cached => (some cached, c)
      | none =>
        match blockOf H said ⟨id, budget, focused, c.docs.json doc⟩ with
        | none => (none, { c with reads := c.reads + 1 })
        | some block => (some block, { c with
            reads := c.reads + 1
            providers :=
              ((⟨id, budget, focused, c.docs.json doc⟩ : Ask).key H, block) :: c.providers }) := by
  have hkey : ((⟨id, budget, focused, c.docs.json doc⟩ : Ask).key H) =
    (id, ((H.blake3 (utf8 (H.render (c.docs.json doc)))).take 16).toString, budget) := rfl
  rw [hkey, contextBlock, run_bind, run_get]
  dsimp only
  rw [run_bind, run_get]
  dsimp only
  rcases c.providers.lookup
    (id, ((H.blake3 (utf8 (H.render (c.docs.json doc)))).take 16).toString, budget) with _ | cached
  · have hread : ∀ f : ℕ → Program H (Option ContextBlock), (nextRead >>= f).run c =
      (f c.reads).run { c with reads := c.reads + 1 } := fun f => rfl
    dsimp only
    rw [hread, hsaid, blockOf]
    dsimp only
    split <;> rfl
  · rfl

theorem Told.mono {asked asked' : List Ask} (h : Told H asked') (hsub : asked ⊆ asked') :
    Told H asked :=
  fun a ha a' ha' => h a (hsub ha) a' (hsub ha')

theorem Kept.mono {kept : Cache} {asked asked' : List Ask} (h : Kept H said kept asked)
    (hsub : asked ⊆ asked') : Kept H said kept asked' := by
  intro key block hlookup
  obtain ⟨a, ha, hblock⟩ := h key block hlookup
  exact ⟨a, hsub ha, hblock⟩

/-- In one call a harness is focused or it is not. -/
theorem focused_of_mem {c : Core H} {docIds : List (HarnessId × DocId)}
    {wanted : List (HarnessId × ℕ)} {spent : ℕ} {a : Ask}
    (h : a ∈ asksFrom said c docIds wanted spent) :
    a.focused = decide (some a.harness = c.mine.focus) := by
  induction wanted generalizing spent with
  | nil => cases h
  | cons want rest ih =>
    obtain ⟨id, budget⟩ := want
    rw [asksFrom] at h
    split at h
    · cases h
    · split at h
      · rcases List.mem_cons.mp h with rfl | h
        · rfl
        · exact ih h
      · exact ih h

/-- What is kept of an ask's key is the ask's own block. -/
theorem Kept.block {kept : Cache} {asked : List Ask} {a : Ask} {block : ContextBlock}
    (hkept : Kept H said kept asked) (htold : Told H (asked ++ [a]))
    (hsteady : Steady H said asked [a]) (hlookup : kept.lookup (a.key H) = some block) :
    blockOf H said a = some block := by
  obtain ⟨a', ha', hkey, hblock⟩ := hkept _ _ hlookup
  have hharness : a'.harness = a.harness := congrArg Prod.fst hkey
  have hhash : hashOf H a'.document = hashOf H a.document := congrArg (·.2.1) hkey
  have hbudget : a'.budget = a.budget := congrArg (·.2.2) hkey
  have hdocument := htold a' (List.mem_append_left _ ha') a
    (List.mem_append_right _ (List.mem_singleton_self a)) hhash
  by_cases hfocused : a'.focused = a.focused
  · obtain ⟨harness, budget, focused, document⟩ := a
    obtain ⟨harness', budget', focused', document'⟩ := a'
    cases hharness
    cases hbudget
    cases hdocument
    cases hfocused
    exact hblock
  · rw [hsteady a' ha' a (List.mem_singleton_self a) hharness hbudget hdocument hfocused
      (by rw [hblock]; nofun), hblock]

/-- Core with so much kept, after so many answers of the host. -/
def keeping (c : Core H) (kept : Cache) (reads : ℕ) : Core H :=
  { c with providers := kept, reads := reads }

theorem assemble_cons (c : Core H) (docIds : List (HarnessId × DocId)) (id : HarnessId)
    (budget : ℕ) (rest : List (HarnessId × ℕ)) (spent : ℕ) :
    (assemble docIds ((id, budget) :: rest) spent).run c =
      if c.cfg.profile.contextBudgetTokens ≤ spent then ([], c)
      else
        match (c.registry.get id).filter fun h => h.enabled && h.contextProvider,
            docIds.lookup id with
        | some _, some doc =>
          let now := (contextBlock id doc (min budget (c.cfg.profile.contextBudgetTokens - spent))
            (some id = c.mine.focus)).run c
          match now.1 with
          | some block =>
            let later := (assemble docIds rest (spent + block.tokens)).run now.2
            (block :: later.1, later.2)
          | none => (assemble docIds rest spent).run now.2
        | _, _ => (assemble docIds rest spent).run c := by
  rw [assemble, run_bind, run_get]
  dsimp only
  split
  · rfl
  · generalize (c.registry.get id).filter (fun h => h.enabled && h.contextProvider) = listed
    generalize docIds.lookup id = doc
    rcases listed with _ | listed
    · rfl
    · rcases doc with _ | doc
      · rfl
      · rw [run_bind]
        dsimp only
        generalize (contextBlock id doc (min budget (c.cfg.profile.contextBudgetTokens - spent))
          (some id = c.mine.focus)).run c = now
        obtain ⟨block, c'⟩ := now
        rcases block with _ | block <;> rfl

/-- A call gives its asks' blocks, and what is kept after it is what was asked. -/
theorem assemble_run (hsaid : ∀ n id budget focused doc,
    H.context n id budget focused doc = said id budget focused doc) (c : Core H)
    (docIds : List (HarnessId × DocId)) {wanted : List (HarnessId × ℕ)} {spent reads : ℕ}
    {kept : Cache} {asked : List Ask} (hkept : Kept H said kept asked)
    (htold : Told H (asked ++ asksFrom said c docIds wanted spent))
    (hsteady : Steady H said asked (asksFrom said c docIds wanted spent)) :
    ∃ kept' reads', (assemble docIds wanted spent).run (keeping c kept reads) =
        ((asksFrom said c docIds wanted spent).filterMap (blockOf H said),
          keeping c kept' reads') ∧
      Kept H said kept' (asked ++ asksFrom said c docIds wanted spent) := by
  induction wanted generalizing spent reads kept asked with
  | nil => exact ⟨kept, reads, rfl, by rw [asksFrom, List.append_nil]; exact hkept⟩
  | cons want rest ih =>
    obtain ⟨id, budget⟩ := want
    rw [assemble_cons, asksFrom]
    rw [asksFrom] at htold hsteady
    have hcfg : (keeping c kept reads).cfg = c.cfg := rfl
    have hregistry : (keeping c kept reads).registry = c.registry := rfl
    have hmine : (keeping c kept reads).mine = c.mine := rfl
    rw [hcfg, hregistry, hmine]
    split
    · exact ⟨kept, reads, rfl, by rw [List.append_nil]; exact hkept⟩
    · next hover =>
      rw [if_neg hover] at htold hsteady
      generalize (c.registry.get id).filter (fun h => h.enabled && h.contextProvider) = listed
        at htold hsteady ⊢
      generalize docIds.lookup id = doc at htold hsteady ⊢
      rcases listed with _ | listed
      · exact ih hkept htold hsteady
      · rcases doc with _ | doc
        · exact ih hkept htold hsteady
        · dsimp only at htold hsteady ⊢
          rw [contextBlock_run hsaid]
          have hdocs : (keeping c kept reads).docs = c.docs := rfl
          have hproviders : (keeping c kept reads).providers = kept := rfl
          rw [hdocs, hproviders]
          have hfocused : (⟨id, min budget (c.cfg.profile.contextBudgetTokens - spent),
            decide (some id = c.mine.focus), c.docs.json doc⟩ : Ask).focused =
              decide (some id = c.mine.focus) := rfl
          have hharness : (⟨id, min budget (c.cfg.profile.contextBudgetTokens - spent),
            decide (some id = c.mine.focus), c.docs.json doc⟩ : Ask).harness = id := rfl
          generalize (⟨id, min budget (c.cfg.profile.contextBudgetTokens - spent),
            decide (some id = c.mine.focus), c.docs.json doc⟩ : Ask) = a
            at htold hsteady hfocused hharness ⊢
          -- what is asked afterwards, with this ask among what was asked before it
          have hlater : ∀ spent, Told H (asked ++ a :: asksFrom said c docIds rest spent) →
              Steady H said asked (a :: asksFrom said c docIds rest spent) →
              Told H ((asked ++ [a]) ++ asksFrom said c docIds rest spent) ∧
              Steady H said (asked ++ [a]) (asksFrom said c docIds rest spent) := by
            intro spent htold hsteady
            refine ⟨by rwa [List.append_assoc], fun x hx x' hx' => ?_⟩
            rcases List.mem_append.mp hx with hx | hx
            · exact hsteady x hx x' (List.mem_cons_of_mem _ hx')
            · rw [List.mem_singleton.mp hx]
              intro hsame _ _ hfocus
              refine absurd ?_ hfocus
              rw [hfocused, focused_of_mem hx', ← hsame, hharness]
          have hsub : asked ⊆ asked ++ [a] := fun x hx => List.mem_append_left _ hx
          have hown : Told H (asked ++ [a]) := htold.mono fun x hx => by
            rcases List.mem_append.mp hx with hx | hx
            · exact List.mem_append_left _ hx
            · rw [List.mem_singleton.mp hx]
              simp
          have hsame : Steady H said asked [a] := fun x hx x' hx' =>
            hsteady x hx x' (by rw [List.mem_singleton.mp hx']; exact List.mem_cons_self)
          rcases hlookup : kept.lookup (a.key H) with _ | cached
          · rcases hblock : blockOf H said a with _ | block
            · -- nothing is said, and nothing is kept
              rw [hblock] at htold hsteady
              obtain ⟨htold', hsteady'⟩ := hlater _ htold hsteady
              obtain ⟨kept', reads', hrun, hkept'⟩ :=
                @ih _ (reads + 1) _ _ (hkept.mono hsub) htold' hsteady'
              refine ⟨kept', reads', ?_, by rwa [List.append_assoc] at hkept'⟩
              rw [List.filterMap_cons_none hblock]
              exact hrun
            · rw [hblock] at htold hsteady
              obtain ⟨htold', hsteady'⟩ := hlater _ htold hsteady
              have hmore : Kept H said ((a.key H, block) :: kept) (asked ++ [a]) := by
                intro key found hfound
                rw [List.lookup_cons] at hfound
                split at hfound
                · next heq =>
                  rw [Option.some.injEq] at hfound
                  refine ⟨a, by simp, (beq_iff_eq.mp heq).symm, ?_⟩
                  rw [hblock, hfound]
                · exact hkept.mono hsub key found hfound
              obtain ⟨kept', reads', hrun, hkept'⟩ := @ih _ (reads + 1) _ _ hmore htold' hsteady'
              refine ⟨kept', reads', ?_, by rwa [List.append_assoc] at hkept'⟩
              rw [List.filterMap_cons_some hblock]
              exact congrArg (fun r : List ContextBlock × Core H => (block :: r.1, r.2)) hrun
          · -- what is kept is what the ask would be answered
            have hblock := hkept.block hown hsame hlookup
            rw [hblock] at htold hsteady
            obtain ⟨htold', hsteady'⟩ := hlater _ htold hsteady
            obtain ⟨kept', reads', hrun, hkept'⟩ :=
              @ih _ reads _ _ (hkept.mono hsub) htold' hsteady'
            rw [hblock]
            refine ⟨kept', reads', ?_, by rwa [List.append_assoc] at hkept'⟩
            rw [List.filterMap_cons_some hblock]
            exact congrArg (fun r : List ContextBlock × Core H => (cached :: r.1, r.2)) hrun

/-- A call whose asks are as steady as what was asked before gives their blocks. -/
theorem Call.made_eq (hsaid : ∀ n id budget focused doc,
    H.context n id budget focused doc = said id budget focused doc) (call : Call H) {kept : Cache}
    {asked : List Ask} (hkept : Kept H said kept asked)
    (htold : Told H (asked ++ call.asks said)) (hsteady : Steady H said asked (call.asks said)) :
    (call.made kept).1 = (call.asks said).filterMap (blockOf H said) ∧
      Kept H said (call.made kept).2.providers (asked ++ call.asks said) := by
  obtain ⟨kept', reads', hrun, hkept'⟩ :=
    @assemble_run H said hsaid call.core call.docIds _ 0 call.core.reads _ _ hkept htold hsteady
  have hmade : call.made kept = (assemble call.docIds
    (wantedBlocks call.core.cfg.profile call.core.mine.focus call.also) 0).run
      (keeping call.core kept call.core.reads) := rfl
  rw [hmade, hrun]
  exact ⟨rfl, hkept'⟩

/-- Calls each as steady as what was asked before give their asks' blocks. -/
theorem gives_eq (hsaid : ∀ n id budget focused doc,
    H.context n id budget focused doc = said id budget focused doc) {calls : List (Call H)}
    {kept : Cache} {asked : List Ask} (hkept : Kept H said kept asked)
    (htold : Told H (asked ++ calls.flatMap (Call.asks said)))
    (hbefore : ∀ call ∈ calls, Steady H said asked (call.asks said))
    (hsteady : calls.Pairwise fun call later =>
      Steady H said (call.asks said) (later.asks said)) :
    gives kept calls = calls.map fun call => (call.asks said).filterMap (blockOf H said) := by
  induction calls generalizing kept asked with
  | nil => rfl
  | cons call rest ih =>
    obtain ⟨hfirst, hrest⟩ := List.pairwise_cons.mp hsteady
    rw [List.flatMap_cons, ← List.append_assoc] at htold
    obtain ⟨hmade, hkept'⟩ := call.made_eq hsaid hkept
      (htold.mono (List.subset_append_left _ _)) (hbefore call List.mem_cons_self)
    rw [gives, hmade, List.map_cons, ih hkept' htold (fun later hlater a ha => ?_) hrest]
    rcases List.mem_append.mp ha with ha | ha
    · exact hbefore later (List.mem_cons_of_mem _ hlater) a ha
    · exact hfirst later hlater a ha

end Run

/-- **The provider cache is invisible** where providers are functions of what they are given, no two
documents asked about have one hash, and no provider that said something in one call is asked in a
later one of the same document, at the same budget and with the other focus, and says something else:
each call gives the blocks it would give with an empty cache. -/
theorem cache_invisible (H : Host) (said : Said) (hsaid : ∀ n id budget focused doc,
    H.context n id budget focused doc = said id budget focused doc) (calls : List (Call H))
    (htold : Told H (calls.flatMap (Call.asks said)))
    (hsteady : calls.Pairwise fun call later =>
      Steady H said (call.asks said) (later.asks said)) :
    gives [] calls = calls.map fun call => (call.made []).1 := by
  have hempty : Kept H said [] [] := fun key block h => by cases h
  rw [gives_eq hsaid hempty htold (fun _ _ a ha => by cases ha) hsteady]
  refine List.map_congr_left fun call hcall => ?_
  refine (call.made_eq hsaid hempty (htold.mono fun a ha => ?_) fun a ha => by cases ha).1.symm
  exact List.mem_flatMap.mpr ⟨call, hcall, ha⟩

/-! ### One board, asked twice -/

/-- A board tells its headline, and all of it where it is focused. -/
def boardSaid : Said := fun _ _ focused _ =>
  .ok (if focused then "board: 2 shapes\nrect a\nrect b" else "board: 2 shapes", true)

def boardHost : Host :=
  { Sample.host with context := fun _ id budget focused doc => boardSaid id budget focused doc }

/-- Core with the notes in it, focused or pinned, under a profile that gives both one budget. -/
def boardCore (focus : Option HarnessId) : Core boardHost :=
  let c : Core boardHost := Core.start Sample.computer [Sample.staged Sample.notes]
  { c with mine := { c.mine with focus := focus } }

def pinnedCall : Call boardHost :=
  ⟨boardCore none, ["notes"], [("notes", "doc")]⟩

def focusedCall : Call boardHost :=
  ⟨boardCore (some "notes"), [], [("notes", "doc")]⟩

/-- The one document there is, asked about at one budget. -/
def boardAsk (focused : Bool) : Ask :=
  ⟨"notes", 100, focused, .null⟩

theorem boardCalls_asks : pinnedCall.asks boardSaid = [boardAsk false] ∧
    focusedCall.asks boardSaid = [boardAsk true] :=
  ⟨rfl, rfl⟩

/-- Pinned twice, the board's headline is given again. -/
theorem headline_again : gives [] [pinnedCall, pinnedCall] =
    [pinnedCall, pinnedCall].map fun call => (call.made []).1 := by
  refine cache_invisible boardHost boardSaid (fun _ _ _ _ _ => rfl) _ ?_ ?_
  · intro a ha a' ha' _
    simp only [List.flatMap_cons, List.flatMap_nil, boardCalls_asks.1, List.append_nil,
      List.mem_append, List.mem_singleton, or_self] at ha ha'
    rw [ha, ha']
  · refine List.pairwise_pair.mpr fun a ha a' ha' _ _ _ hfocused => ?_
    rw [boardCalls_asks.1, List.mem_singleton] at ha ha'
    rw [ha, ha'] at hfocused
    exact absurd rfl hfocused

/-- Pinned and then focused, at one budget: the focused board is given as its headline. -/
theorem headline_focused : (∀ n id budget focused doc,
      boardHost.context n id budget focused doc = boardSaid id budget focused doc) ∧
    Told boardHost ([pinnedCall, focusedCall].flatMap (Call.asks boardSaid)) ∧
    gives [] [pinnedCall, focusedCall] ≠
      [pinnedCall, focusedCall].map fun call => (call.made []).1 := by
  refine ⟨fun _ _ _ _ _ => rfl, ?_, fun h => ?_⟩
  · intro a ha a' ha' _
    simp only [List.flatMap_cons, List.flatMap_nil, boardCalls_asks.1, boardCalls_asks.2,
      List.append_nil, List.mem_append, List.mem_singleton] at ha ha'
    rcases ha with rfl | rfl <;> rcases ha' with rfl | rfl <;> rfl
  · have htexts := congrArg (List.map (List.map ContextBlock.text)) h
    revert htexts
    decide +kernel

end LocalSpace.Providers
