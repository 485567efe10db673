import LocalSpace.Library.Slices
import LocalSpace.Pages
import LocalSpace.Providers

/-!
# What context blocks cost

`context.rs`'s `truncate_to_budget` and `lib.rs`'s `estimate_tokens`, under `assemble`: a text that
is over its budget is cut on a line boundary and ended by a marker. The marker is put there whatever
the budget: a block keeps to a budget of 21 tokens or more, and to a smaller one only where its text
does. -/

namespace LocalSpace.Budgets

open Library

/-- `estimate_tokens`, of letters. -/
@[grind =]
def tokensOf (text : List Char) : ℕ :=
  (byteLength text + 3) / 4

@[grind =]
def estimateTokens (s : String) : ℕ :=
  tokensOf s.toList

/-- What says that a text was cut. -/
def marker : String :=
  "\n[truncated to fit the context budget — call the harness's zoom tool for detail]"

/-- The marker without the line end before it. -/
def markerLine : List Char :=
  marker.toList.dropWhile (· = '\n')

/-- The lines there is room for, one after another. -/
@[grind =]
def keepLines (room : ℕ) : List Char → List (List Char) → List Char
  | out, [] => out
  | out, line :: rest =>
    if room < tokensOf out + tokensOf line + 1 then out
    else keepLines room (out ++ (line ++ ['\n'])) rest

/-- Cut a provider's text to its budget on a line boundary, saying so. -/
@[grind =]
def truncateToBudget (text : String) (budgetTokens : ℕ) : String :=
  if estimateTokens text ≤ budgetTokens then text
  else
    let room := budgetTokens - estimateTokens marker
    String.ofList (keepLines room [] (Net.linesOf text.toList) ++ markerLine)

/-! ### One text -/

set_option maxRecDepth 4000 in
theorem marker_eq : marker.toList =
    ['\n', '[', 't', 'r', 'u', 'n', 'c', 'a', 't', 'e', 'd', ' ', 't', 'o', ' ', 'f', 'i', 't',
      ' ', 't', 'h', 'e', ' ', 'c', 'o', 'n', 't', 'e', 'x', 't', ' ', 'b', 'u', 'd', 'g', 'e',
      't', ' ', '—', ' ', 'c', 'a', 'l', 'l', ' ', 't', 'h', 'e', ' ', 'h', 'a', 'r', 'n', 'e',
      's', 's', '\'', 's', ' ', 'z', 'o', 'o', 'm', ' ', 't', 'o', 'o', 'l', ' ', 'f', 'o', 'r',
      ' ', 'd', 'e', 't', 'a', 'i', 'l', ']'] :=
  String.toList_ofList

theorem marker_tokens : estimateTokens marker = 21 := by
  rw [estimateTokens, marker_eq]
  decide

theorem markerLine_tokens : tokensOf markerLine = 21 ∧ byteLength markerLine = 81 := by
  rw [markerLine, marker_eq]
  decide

/-- What is kept stays within its room: a line's end is within the token added for it. -/
theorem keepLines_tokens {room : ℕ} {out : List Char} {lines : List (List Char)}
    (h : tokensOf out ≤ room) : tokensOf (keepLines room out lines) ≤ room := by
  induction lines generalizing out with
  | nil => exact h
  | cons line rest ih =>
    rw [keepLines]
    split_ifs with hover
    · exact h
    · have hbytes : byteLength (out ++ (line ++ ['\n'])) =
          byteLength out + (byteLength line + 1) := by
        rw [byteLength_append, byteLength_append]
        rfl
      refine ih ?_
      rw [not_lt] at hover
      rw [tokensOf, hbytes]
      rw [tokensOf, tokensOf] at hover
      omega

/-- What is kept are whole leading lines. -/
theorem keepLines_lines (room : ℕ) (out : List Char) (lines : List (List Char)) :
    ∃ k, keepLines room out lines = out ++ (lines.take k).flatMap fun line => line ++ ['\n'] := by
  induction lines generalizing out with
  | nil => exact ⟨0, by simp [keepLines]⟩
  | cons line rest ih =>
    rw [keepLines]
    split_ifs
    · exact ⟨0, by simp⟩
    · obtain ⟨k, hk⟩ := ih (out ++ (line ++ ['\n']))
      exact ⟨k + 1, by rw [hk, List.take_succ_cons, List.flatMap_cons, List.append_assoc]⟩

theorem keepLines_none (lines : List (List Char)) : keepLines 0 [] lines = [] := by
  rcases lines with _ | ⟨line, rest⟩
  · rfl
  · rw [keepLines, if_pos (Nat.succ_pos _)]

/-- Where the whole marker fits, so does what is kept before it. -/
theorem truncateToBudget_tokens {text : String} {budget : ℕ} (h : 21 ≤ budget) :
    estimateTokens (truncateToBudget text budget) ≤ budget := by
  rw [truncateToBudget, marker_tokens]
  split_ifs with hfits
  · exact hfits
  · have hkept := @keepLines_tokens (budget - 21) [] (Net.linesOf text.toList) (Nat.zero_le _)
    rw [estimateTokens, String.toList_ofList, tokensOf, byteLength_append, markerLine_tokens.2]
    rw [tokensOf] at hkept
    omega

/-- Where it does not, there is nothing but the marker. -/
theorem truncateToBudget_marker {text : String} {budget : ℕ} (h : budget < 21)
    (hover : budget < estimateTokens text) :
    estimateTokens (truncateToBudget text budget) = 21 := by
  have hroom : budget - 21 = 0 := by omega
  rw [truncateToBudget, if_neg (not_le.mpr hover), marker_tokens]
  dsimp only
  rw [hroom, keepLines_none, List.nil_append, estimateTokens, String.toList_ofList,
    markerLine_tokens.1]

/-- **A text keeps to its budget** exactly where it fits, or the marker does. -/
theorem truncateToBudget_le_iff (text : String) (budget : ℕ) :
    estimateTokens (truncateToBudget text budget) ≤ budget ↔
      estimateTokens text ≤ budget ∨ 21 ≤ budget := by
  constructor
  · intro h
    by_contra hnot
    rw [not_or, not_le, not_le] at hnot
    rw [truncateToBudget_marker hnot.2 hnot.1] at h
    omega
  · rintro (h | h)
    · rwa [truncateToBudget, if_pos h]
    · exact truncateToBudget_tokens h

/-- A text is the provider's own, or whole leading lines of it and the marker. -/
def OwnOrCut (said text : String) : Prop :=
  text = said ∨ ∃ k, text.toList =
    ((Net.linesOf said.toList).take k).flatMap (fun line => line ++ ['\n']) ++ markerLine

theorem truncateToBudget_ownOrCut (said : String) (budget : ℕ) :
    OwnOrCut said (truncateToBudget said budget) := by
  rw [truncateToBudget]
  split_ifs
  · exact Or.inl rfl
  · obtain ⟨k, hk⟩ := keepLines_lines (budget - estimateTokens marker) []
      (Net.linesOf said.toList)
    exact Or.inr ⟨k, by rw [String.toList_ofList, hk, List.nil_append]⟩

/-! ### The blocks of a turn -/

/-- A host whose tokens are counted and whose texts are cut as they are. -/
def budgeted (H : Host) : Host :=
  { H with estimateTokens := estimateTokens, truncateToBudget := truncateToBudget }

/-- What a provider said at the budget it was given. -/
structure Given (H : Host) where
  harness : HarnessId
  budget : ℕ
  said : String
  more : Bool
  by_provider : ∃ n focused doc,
    providerSaid (H.context n harness budget focused doc) = (said, more)

def Given.block {H : Host} (g : Given H) : ContextBlock :=
  let text := truncateToBudget g.said g.budget
  ⟨g.harness, text, estimateTokens text, g.more⟩

/-- Each budget is the harness's own, or what is left of the context's. -/
def AsGiven {H : Host} (context : ℕ) (own : HarnessId → ℕ) : ℕ → List (Given H) → Prop
  | _, [] => True
  | spent, g :: gs => g.budget = min (own g.harness) (context - spent) ∧
    AsGiven context own (spent + g.block.tokens) gs

/-- Each block costs at most the budget it was given. -/
def Within (context : ℕ) (own : HarnessId → ℕ) : ℕ → List ContextBlock → Prop
  | _, [] => True
  | spent, b :: bs => (b.tokens = estimateTokens b.text ∧
      b.tokens ≤ min (own b.harness) (context - spent)) ∧ Within context own (spent + b.tokens) bs

section Blocks

variable {H : Host} {context spent : ℕ} {own : HarnessId → ℕ}

theorem within_iff {gs : List (Given H)} (h : AsGiven context own spent gs) :
    Within context own spent (gs.map Given.block) ↔
      ∀ g ∈ gs, estimateTokens g.said ≤ g.budget ∨ 21 ≤ g.budget := by
  induction gs generalizing spent with
  | nil => simp [Within]
  | cons g gs ih =>
    obtain ⟨hbudget, hrest⟩ := h
    have hown : own g.block.harness = own g.harness := rfl
    rw [List.map_cons, Within, ih hrest, hown, ← hbudget, List.forall_mem_cons]
    have htokens : g.block.tokens = estimateTokens g.block.text := rfl
    refine and_congr_left fun _ => (and_iff_right htokens).trans ?_
    exact truncateToBudget_le_iff g.said g.budget

theorem Within.sum_le {bs : List ContextBlock} (h : Within context own spent bs)
    (hspent : spent ≤ context) : spent + (bs.map ContextBlock.tokens).sum ≤ context := by
  induction bs generalizing spent with
  | nil => simpa using hspent
  | cons b bs ih =>
    obtain ⟨⟨-, hbudget⟩, hrest⟩ := h
    have hleft := hbudget.trans (min_le_right _ _)
    rw [List.map_cons, List.sum_cons, ← Nat.add_assoc]
    exact ih hrest (by omega)

end Blocks

/-- What is kept are blocks of what providers said, by their harness and their budget. -/
@[grind =]
def Kept (H : Host) (kept : Providers.Cache) : Prop :=
  ∀ key block, kept.lookup key = some block →
    ∃ g : Given H, g.harness = key.1 ∧ g.budget = key.2.2 ∧ g.block = block

section Runs

variable {H : Host}

/-- One block: kept, or of what the provider says now. -/
theorem contextBlock_given (c : Core (budgeted H)) (hkept : Kept H c.providers) (id : HarnessId)
    (doc : DocId) (budget : ℕ) (focused : Bool) :
    ∃ block c', (contextBlock id doc budget focused).run c = (block, c') ∧
      Kept H c'.providers ∧ c'.cfg = c.cfg ∧ c'.registry = c.registry ∧ c'.mine = c.mine ∧
      ∀ b, block = some b → ∃ g : Given H, g.harness = id ∧ g.budget = budget ∧ g.block = b := by
  rw [contextBlock, run_bind, run_get]
  dsimp only
  rw [run_bind, run_get]
  dsimp only
  generalize hkey : (id, (((budgeted H).blake3
    (utf8 ((budgeted H).render (c.docs.json doc)))).take 16).toString, budget) = key
  rcases hfound : c.providers.lookup key with _ | cached
  · have hread : ∀ f : ℕ → Program (budgeted H) (Option ContextBlock), (nextRead >>= f).run c =
      (f c.reads).run { c with reads := c.reads + 1 } := fun f => rfl
    dsimp only
    rw [hread]
    rcases hsaid : providerSaid (H.context c.reads id budget focused (c.docs.json doc)) with
      ⟨said, more⟩
    have hsaid' : providerSaid ((budgeted H).context c.reads id budget focused (c.docs.json doc)) =
        (said, more) := hsaid
    rw [hsaid']
    dsimp only
    split_ifs
    · exact ⟨none, _, rfl, hkept, rfl, rfl, rfl, by simp⟩
    · let g : Given H := ⟨id, budget, said, more, _, _, _, hsaid⟩
      refine ⟨some g.block, { c with
        reads := c.reads + 1
        providers := (key, g.block) :: c.providers }, rfl, ?_, rfl, rfl, rfl, ?_⟩
      · intro key' block hlookup
        rw [List.lookup_cons] at hlookup
        split at hlookup
        · next heq =>
          rw [beq_iff_eq.mp heq, ← hkey]
          exact ⟨g, rfl, rfl, Option.some.inj hlookup⟩
        · exact hkept key' block hlookup
      · intro b hb
        exact ⟨g, rfl, rfl, Option.some.inj hb⟩
  · refine ⟨some cached, c, rfl, hkept, rfl, rfl, rfl, fun b hb => ?_⟩
    obtain ⟨g, hharness, hbudget, hblock⟩ := hkept key cached hfound
    rw [← hkey] at hharness hbudget
    exact ⟨g, hharness, hbudget, hblock.trans (Option.some.inj hb)⟩

/-- The blocks of a turn are of what providers said, each at its budget. -/
theorem assemble_given (docIds : List (HarnessId × DocId)) (own : HarnessId → ℕ)
    {wanted : List (HarnessId × ℕ)} (hown : ∀ w ∈ wanted, w.2 = own w.1) (spent : ℕ)
    (c : Core (budgeted H)) (hkept : Kept H c.providers) :
    ∃ (gs : List (Given H)) (c' : Core (budgeted H)),
      (assemble docIds wanted spent).run c = (gs.map Given.block, c') ∧
      AsGiven c.cfg.profile.contextBudgetTokens own spent gs ∧ Kept H c'.providers := by
  induction wanted generalizing spent c with
  | nil => exact ⟨[], c, rfl, trivial, hkept⟩
  | cons want rest ih =>
    obtain ⟨id, budget⟩ := want
    obtain ⟨hbudget, hrest⟩ := List.forall_mem_cons.mp hown
    rw [Providers.assemble_cons]
    split_ifs with hover
    · exact ⟨[], c, rfl, trivial, hkept⟩
    generalize (c.registry.get id).filter (fun h => h.enabled && h.contextProvider) = listed
    generalize docIds.lookup id = doc
    rcases listed with _ | listed
    · exact ih hrest spent c hkept
    rcases doc with _ | doc
    · exact ih hrest spent c hkept
    obtain ⟨block, c', hrun, hkept', hcfg, -, -, hblock⟩ := contextBlock_given c hkept id doc
      (min budget (c.cfg.profile.contextBudgetTokens - spent)) (some id = c.mine.focus)
    dsimp only
    rw [hrun]
    rcases block with _ | block
    · rw [← hcfg]
      exact ih hrest spent c' hkept'
    · obtain ⟨g, rfl, hgiven, rfl⟩ := hblock block rfl
      obtain ⟨gs, c'', hlater, has, hkept''⟩ := ih hrest (spent + g.block.tokens) c' hkept'
      refine ⟨g :: gs, c'', ?_, ⟨?_, ?_⟩, hkept''⟩
      · dsimp only
        rw [hlater]
        rfl
      · rw [hgiven, ← hbudget]
      · rwa [hcfg] at has

end Runs

/-- What is kept after some calls. -/
def keptAfter {H : Host} : Providers.Cache → List (Providers.Call H) → Providers.Cache
  | kept, [] => kept
  | kept, call :: rest => keptAfter (call.made kept).2.providers rest

/-- The budget of a harness, focused or not. -/
def ownBudget {H : Host} (call : Providers.Call H) (id : HarnessId) : ℕ :=
  if some id = call.core.mine.focus then call.core.cfg.profile.focusedContextTokens
  else call.core.cfg.profile.pinnedContextTokens

/-- The blocks of a call keep to their budgets and together to the context's, and each text is its
provider's own or whole leading lines of it and the marker. -/
structure InBudget {H : Host} (call : Providers.Call H) (blocks : List ContextBlock) : Prop where
  each : Within call.core.cfg.profile.contextBudgetTokens (ownBudget call) 0 blocks
  together : (blocks.map ContextBlock.tokens).sum ≤ call.core.cfg.profile.contextBudgetTokens
  texts : ∀ block ∈ blocks, ∃ said, OwnOrCut said block.text ∧ ∃ n budget focused doc more,
    providerSaid (H.context n block.harness budget focused doc) = (said, more)

section Calls

variable {H : Host}

theorem wanted_own (call : Providers.Call (budgeted H)) :
    ∀ w ∈ wantedBlocks call.core.cfg.profile call.core.mine.focus call.also,
      w.2 = ownBudget call w.1 := by
  intro w hw
  rcases List.mem_append.mp hw with hw | hw
  · obtain ⟨f, hf, rfl⟩ := List.mem_map.mp hw
    rw [ownBudget, if_pos (Option.mem_toList.mp hf).symm]
  · obtain ⟨id, hid, rfl⟩ := List.mem_map.mp hw
    rw [ownBudget, if_neg (of_decide_eq_true (List.mem_filter.mp hid).2)]

theorem made_given {kept : Providers.Cache} (hkept : Kept H kept)
    (call : Providers.Call (budgeted H)) :
    ∃ gs : List (Given H), (call.made kept).1 = gs.map Given.block ∧
      AsGiven call.core.cfg.profile.contextBudgetTokens (ownBudget call) 0 gs ∧
      Kept H (call.made kept).2.providers := by
  obtain ⟨gs, c', hrun, has, hkept'⟩ := assemble_given call.docIds (ownBudget call)
    (wanted_own call) 0 { call.core with providers := kept } hkept
  rw [Providers.Call.made, hrun]
  exact ⟨gs, rfl, has, hkept'⟩

theorem keptAfter_kept {kept : Providers.Cache} (hkept : Kept H kept)
    (calls : List (Providers.Call (budgeted H))) : Kept H (keptAfter kept calls) := by
  induction calls generalizing kept with
  | nil => exact hkept
  | cons call rest ih =>
    obtain ⟨-, -, -, hkept'⟩ := made_given hkept call
    exact ih hkept'

end Calls

/-- **Context blocks keep to their budgets** exactly where no text that is over its budget was given
less than the marker's own cost: in every call of `assemble` after any others with one cache. -/
theorem blocks_inBudget_iff (H : Host) (before : List (Providers.Call (budgeted H)))
    (call : Providers.Call (budgeted H)) :
    ∃ gs : List (Given H), (call.made (keptAfter [] before)).1 = gs.map Given.block ∧
      AsGiven call.core.cfg.profile.contextBudgetTokens (ownBudget call) 0 gs ∧
      (InBudget call (call.made (keptAfter [] before)).1 ↔
        ∀ g ∈ gs, estimateTokens g.said ≤ g.budget ∨ 21 ≤ g.budget) := by
  have hempty : Kept H [] := fun key block h => by simp at h
  obtain ⟨gs, hmade, has, -⟩ := made_given (keptAfter_kept hempty before) call
  refine ⟨gs, hmade, has, ?_⟩
  rw [hmade, ← within_iff has]
  refine ⟨InBudget.each, fun hwithin => ⟨hwithin, ?_, fun block hblock => ?_⟩⟩
  · have hsum := hwithin.sum_le (Nat.zero_le _)
    rwa [Nat.zero_add] at hsum
  · obtain ⟨g, -, rfl⟩ := List.mem_map.mp hblock
    obtain ⟨n, focused, doc, hsaid⟩ := g.by_provider
    exact ⟨g.said, truncateToBudget_ownOrCut g.said g.budget, n, g.budget, focused, doc, g.more,
      hsaid⟩

/-! ### Less left than the marker costs -/

/-- A board that says a word. -/
def boardHost : Host :=
  { Sample.host with
    context := fun _ _ _ _ _ => .ok (String.ofList ['b', 'o', 'a', 'r', 'd'], false) }

/-- The board focused, with one token for the context. -/
def narrowCall : Providers.Call (budgeted boardHost) where
  core :=
    let c : Core (budgeted boardHost) := Core.start Sample.computer [Sample.staged Sample.notes]
    { c with
      cfg := { c.cfg with profile := { c.cfg.profile with
        contextBudgetTokens := 1
        focusedContextTokens := 1 } }
      mine := { c.mine with focus := some "notes" } }
  also := []
  docIds := [("notes", "doc")]

def narrowGiven : Given boardHost where
  harness := "notes"
  budget := 1
  said := String.ofList ['b', 'o', 'a', 'r', 'd']
  more := false
  by_provider := ⟨0, true, .null, rfl⟩

theorem narrowCall_made : (narrowCall.made []).1 = [narrowGiven.block] := by
  rfl

/-- One token is left, and the block costs the marker's 21. -/
theorem narrow_overruns : ¬InBudget narrowCall (narrowCall.made []).1 := by
  rw [narrowCall_made]
  rintro ⟨-, htogether, -⟩
  have hover : 1 < estimateTokens narrowGiven.said := by
    rw [estimateTokens, narrowGiven, String.toList_ofList]
    decide
  have htokens : narrowGiven.block.tokens = 21 :=
    truncateToBudget_marker (by decide : 1 < 21) hover
  rw [List.map_singleton, List.sum_singleton, htokens] at htogether
  exact absurd htogether (by decide : ¬21 ≤ 1)

end LocalSpace.Budgets
