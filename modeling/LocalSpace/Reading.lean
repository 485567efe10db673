import LocalSpace.Prompts

/-!
# Where the model's reading begins

`prompt.rs`'s `read_from`, over a chat as it grows: the start moves in big steps, only when what is
read no longer fits, to the first of the person's messages from which at most half the working set is
left, or to the person's newest.
-/

namespace LocalSpace.Prompts

/-! ### One message more -/

/-- The person's newest message; or the newest message, where the person said nothing. -/
def Latest (isUser : ℕ → Bool) (stop i : ℕ) : Prop :=
  Newest isUser stop i ∨ (∀ j, j < stop → isUser j = false) ∧ i + 1 = stop

/-- Where the start moves to: the first of the person's messages from which at most half is left; or
the latest, where there is none. -/
inductive MovesTo (costs : ℕ → ℕ) (isUser : ℕ → Bool) (half stop : ℕ) (i : ℕ) : Prop
  | within (huser : isUser i = true) (hhalf : costFrom costs i stop ≤ half)
    (hfirst : ∀ j, j < i → isUser j = true → half < costFrom costs j stop)
  | latest (hover : ∀ j, j < stop → isUser j = true → half < costFrom costs j stop)
    (hlatest : Latest isUser stop i)

section Step

variable {costs : ℕ → ℕ} {isUser : ℕ → Bool} {workingSet half start stop i kept used : ℕ}

theorem costFrom_anti {j : ℕ} (h : i ≤ j) (hj : j ≤ stop) :
    costFrom costs j stop ≤ costFrom costs i stop := by
  induction j, h using Nat.le_induction with
  | base => exact le_rfl
  | succ j hij ih =>
    have hcons : costFrom costs j stop = costs j + costFrom costs (j + 1) stop :=
      costFrom_cons (by omega)
    have hle := ih (by omega)
    omega

/-- Going back stops where the reading began, or where one more would be over half. -/
theorem back_stops (hi : start ≤ i) (hstop : i ≤ stop) (hkept : kept = costFrom costs i stop) :
    (back costs half start i kept).1 = start ∨
      half < costFrom costs ((back costs half start i kept).1 - 1) stop := by
  induction i generalizing kept with
  | zero => exact .inl (Nat.le_zero.mp hi).symm
  | succ i ih =>
    have hmore : kept + costs i = costFrom costs i stop := by
      rw [costFrom_cons (by omega), hkept]
      omega
    rw [back]
    split
    · next h => exact ih (by omega) (by omega) hmore
    · next h =>
      rcases Nat.lt_or_ge start (i + 1) with hless | hmet
      · right
        simp only [Nat.add_sub_cancel]
        omega
      · left
        dsimp only
        omega

/-- What is passed on the way is nothing the person said. -/
theorem onward_skips {n j : ℕ} (hj : i ≤ j) (hpassed : j < (onward costs isUser n i kept).1) :
    isUser j = false := by
  induction n generalizing i kept with
  | zero =>
    rw [onward] at hpassed
    omega
  | succ n ih =>
    rw [onward] at hpassed
    split at hpassed
    · omega
    · next huser =>
      rcases Nat.lt_or_eq_of_le hj with hless | rfl
      · exact ih hless hpassed
      · exact Bool.not_eq_true _ ▸ huser

/-- Where the person said something, something is the newest of it. -/
theorem exists_newest (h : ∃ k, k < stop ∧ isUser k = true) : ∃ u, Newest isUser stop u := by
  induction stop with
  | zero =>
    obtain ⟨k, hk, -⟩ := h
    omega
  | succ stop ih =>
    rcases hlast : isUser stop with _ | _
    · obtain ⟨k, hk, huser⟩ := h
      have hne : k ≠ stop := by
        rintro rfl
        rw [hlast] at huser
        cases huser
      obtain ⟨u, hu, huser', hmax⟩ := ih ⟨k, by omega, huser⟩
      refine ⟨u, by omega, huser', fun j hj hjstop => ?_⟩
      rcases Nat.lt_or_eq_of_le (Nat.le_of_lt_succ hjstop) with hless | rfl
      · exact hmax j hj hless
      · exact hlast
    · exact ⟨stop, Nat.lt_succ_self _, hlast, fun j hj hjstop => by omega⟩

/-- What one message more comes to: the start stays where what is read fits, or where it is the
latest; or else it moves on. -/
theorem readStep_moves (hbefore : start ≤ stop) (hused : used = costFrom costs start stop)
    (hnewest : ∀ u, Newest isUser (stop + 1) u → start ≤ u) :
    let now := readStep costs isUser workingSet (start, used) stop
    (now.1 = start ∧
      (costFrom costs start (stop + 1) ≤ workingSet ∨ Latest isUser (stop + 1) start)) ∨
    (start < now.1 ∧ workingSet < costFrom costs start (stop + 1) ∧
      MovesTo costs isUser (workingSet / 2) (stop + 1) now.1) := by
  have hsum : used + costs stop = costFrom costs start (stop + 1) := by
    rw [costFrom_concat hbefore, hused]
  dsimp only [readStep]
  split
  · next hfit => exact .inl ⟨rfl, .inl (hsum ▸ hfit)⟩
  · next hover =>
    have hback := @back_spec costs (workingSet / 2) start (stop + 1) (stop + 1) 0 (by omega) le_rfl
      (costFrom_self _ _).symm (Nat.zero_le _)
    have hstops : (back costs (workingSet / 2) start (stop + 1) 0).1 = start ∨ workingSet / 2 <
        costFrom costs ((back costs (workingSet / 2) start (stop + 1) 0).1 - 1) (stop + 1) :=
      back_stops (by omega) le_rfl (costFrom_self _ _).symm
    generalize back costs (workingSet / 2) start (stop + 1) 0 = reached at hback hstops ⊢
    obtain ⟨i, kept⟩ := reached
    obtain ⟨hle, hstart, hkept, hhalf⟩ := hback
    dsimp only at hle hstart hkept hhalf hstops ⊢
    -- before the place reached, more than half is left
    have hmore : ∀ j, j < i → workingSet / 2 < costFrom costs j (stop + 1) := by
      intro j hj
      rcases hstops with rfl | hstops
      · have hanti : costFrom costs i (stop + 1) ≤ costFrom costs j (stop + 1) :=
          costFrom_anti hj.le (by omega)
        omega
      · have hanti : costFrom costs (i - 1) (stop + 1) ≤ costFrom costs j (stop + 1) :=
          costFrom_anti (by omega) (by omega)
        omega
    obtain ⟨hi, hkept', hless, huser⟩ := @onward_spec costs isUser (stop + 1) i kept
      (stop + 1 - i) (by omega) hkept
    have hskips := fun j => @onward_skips costs isUser i kept (stop + 1 - i) j
    generalize onward costs isUser (stop + 1 - i) i kept = passed at hi hkept' hless huser hskips ⊢
    obtain ⟨j, kept'⟩ := passed
    dsimp only at hi hkept' hless huser hskips ⊢
    split
    · -- even the newest turn is over half
      next hpassed =>
      have hall : ∀ k, k < stop + 1 → isUser k = true →
          workingSet / 2 < costFrom costs k (stop + 1) := by
        intro k hk huser
        rcases Nat.lt_or_ge k i with hki | hki
        · exact hmore k hki
        · rw [hskips k hki (by omega)] at huser
          cases huser
      by_cases hsome : ∃ u, Newest isUser (stop + 1) u
      · obtain ⟨u, hu⟩ := hsome
        have hstartu := hnewest u hu
        rw [find_newest hu hstartu, Option.getD_some]
        split
        · next hmoves => exact .inr ⟨hmoves, by omega, .latest hall (.inl hu)⟩
        · next hstays =>
          have heq : start = u := by omega
          exact .inl ⟨rfl, .inr (.inl (heq ▸ hu))⟩
      · have hnobody : ∀ k, k < stop + 1 → isUser k = false := by
          intro k hk
          by_contra huser
          rw [Bool.not_eq_false] at huser
          exact hsome (exists_newest ⟨k, hk, huser⟩)
        have hnone : (List.range' start (stop + 1 - start)).reverse.find? isUser = none := by
          rw [List.find?_eq_none]
          intro k hk
          rw [List.mem_reverse, List.mem_range'_1] at hk
          simp [hnobody k (by omega)]
        rw [hnone, Option.getD_none]
        split
        · next hmoves => exact .inr ⟨hmoves, by omega, .latest hall (.inr ⟨hnobody, rfl⟩)⟩
        · next hstays =>
          have heq : start = stop := by omega
          exact .inl ⟨rfl, .inr (.inr ⟨hnobody, by rw [heq]⟩)⟩
    · next hin =>
      have hjuser := huser (by omega)
      split
      · next hmoves =>
        have hjhalf : costFrom costs j (stop + 1) ≤ workingSet / 2 := by omega
        refine .inr ⟨hmoves, by omega, .within hjuser hjhalf fun k hk huser => ?_⟩
        rcases Nat.lt_or_ge k i with hki | hki
        · exact hmore k hki
        · rw [hskips k hki hk] at huser
          cases huser
      · -- going back cannot have come to where the reading began: all of it is over
        have heq : j = start := by omega
        subst heq
        omega

end Step

/-! ### A chat as it grows -/

section Growing

variable (T : Texts) {messages : List Message} {workingSet : ℕ}

/-- What is read of a chat from a place on. -/
def readCost (messages : List Message) (i : ℕ) : ℕ :=
  costFrom (costAt T messages) i messages.length

theorem costFrom_congr {costs costs' : ℕ → ℕ} {i stop : ℕ}
    (h : ∀ j, j < stop → costs j = costs' j) : costFrom costs i stop = costFrom costs' i stop := by
  rw [costFrom, costFrom]
  congr 1
  refine List.map_congr_left fun j hj => h j ?_
  rw [List.mem_range'_1] at hj
  omega

theorem back_congr {costs costs' : ℕ → ℕ} {half start i kept : ℕ}
    (h : ∀ j, j < i → costs j = costs' j) :
    back costs half start i kept = back costs' half start i kept := by
  induction i generalizing kept with
  | zero => rfl
  | succ i ih =>
    rw [back, back, h i (Nat.lt_succ_self _), ih fun j hj => h j (by omega)]

theorem onward_congr {costs costs' : ℕ → ℕ} {isUser isUser' : ℕ → Bool} {n i kept : ℕ}
    (hcosts : ∀ j, j < i + n → costs j = costs' j) (husers : ∀ j, j < i + n → isUser j = isUser' j) :
    onward costs isUser n i kept = onward costs' isUser' n i kept := by
  induction n generalizing i kept with
  | zero => rfl
  | succ n ih =>
    rw [onward, onward, hcosts i (by omega), husers i (by omega),
      ih (fun j hj => hcosts j (by omega)) fun j hj => husers j (by omega)]

theorem find_congr {isUser isUser' : ℕ → Bool} {l : List ℕ} (h : ∀ j ∈ l, isUser j = isUser' j) :
    l.find? isUser = l.find? isUser' := by
  induction l with
  | nil => rfl
  | cons j rest ih =>
    rw [List.find?_cons, List.find?_cons, h j List.mem_cons_self,
      ih fun k hk => h k (List.mem_cons_of_mem _ hk)]

/-- A step looks at no later message. -/
theorem readStep_congr {costs costs' : ℕ → ℕ} {isUser isUser' : ℕ → Bool} {now : ℕ × ℕ} {last : ℕ}
    (hbefore : now.1 ≤ last) (hcosts : ∀ j, j < last + 1 → costs j = costs' j)
    (husers : ∀ j, j < last + 1 → isUser j = isUser' j) :
    readStep costs isUser workingSet now last = readStep costs' isUser' workingSet now last := by
  have hback : back costs (workingSet / 2) now.1 (last + 1) 0 =
      back costs' (workingSet / 2) now.1 (last + 1) 0 := back_congr hcosts
  have hle : (back costs' (workingSet / 2) now.1 (last + 1) 0).1 ≤ last + 1 :=
    (@back_spec costs' (workingSet / 2) now.1 (last + 1) (last + 1) 0 (by omega) le_rfl
      (costFrom_self _ _).symm (Nat.zero_le _)).1
  have honward : ∀ i kept, i ≤ last + 1 → onward costs isUser (last + 1 - i) i kept =
      onward costs' isUser' (last + 1 - i) i kept := fun i kept hi =>
    onward_congr (fun j hj => hcosts j (by omega)) fun j hj => husers j (by omega)
  have hfind : (List.range' now.1 (last + 1 - now.1)).reverse.find? isUser =
      (List.range' now.1 (last + 1 - now.1)).reverse.find? isUser' := by
    refine find_congr fun j hj => husers j ?_
    rw [List.mem_reverse, List.mem_range'_1] at hj
    omega
  have hsum : ∀ i, costFrom costs i (last + 1) = costFrom costs' i (last + 1) :=
    fun i => costFrom_congr hcosts
  simp only [readStep, hback, hfind, hsum, hcosts last (Nat.lt_succ_self _), honward _ _ hle]

/-- The state of the reading after so many messages. -/
def readUpTo (messages : List Message) (workingSet n : ℕ) : ℕ × ℕ :=
  (List.range n).foldl (readStep (costAt T messages) (isUser messages) workingSet) (0, 0)

theorem costAt_append {more : List Message} {j : ℕ} (h : j < messages.length) :
    costAt T (messages ++ more) j = costAt T messages j := by
  rw [costAt, costAt, List.getElem?_append_left h]

theorem isUser_append {more : List Message} {j : ℕ} (h : j < messages.length) :
    isUser (messages ++ more) j = isUser messages j := by
  rw [isUser, isUser, List.getElem?_append_left h]

/-- What comes later changes nothing of the reading so far. -/
theorem readUpTo_append (more : List Message) {n : ℕ} (h : n ≤ messages.length) :
    readUpTo T (messages ++ more) workingSet n = readUpTo T messages workingSet n := by
  induction n with
  | zero => rfl
  | succ n ih =>
    have hso : ReadSo (costAt T messages) (isUser messages) n
      (readUpTo T messages workingSet n) := readSo_foldl n
    rw [readUpTo, readUpTo, List.range_succ, List.foldl_concat, List.foldl_concat, ← readUpTo,
      ← readUpTo, ih (by omega)]
    exact readStep_congr hso.before (fun j hj => costAt_append T (by omega))
      fun j hj => isUser_append (by omega)

/-- What is read of a chat from a place on fits, or the place is the chat's latest. -/
def Reads (messages : List Message) (workingSet i : ℕ) : Prop :=
  readCost T messages i ≤ workingSet ∨ Latest (isUser messages) messages.length i

/-- From `start` to `now`, where the reading of a chat begins with its last message added. -/
inductive Moves (messages : List Message) (workingSet start now : ℕ) : Prop
  | stays (hstays : now = start) (h : Reads T messages workingSet start)
  | moves (hover : workingSet < readCost T messages start) (hon : start < now)
    (hto : MovesTo (costAt T messages) (isUser messages) (workingSet / 2) messages.length now)

theorem Moves.reads {start now : ℕ} (h : Moves T messages workingSet start now) :
    Reads T messages workingSet now := by
  rcases h with ⟨rfl, h⟩ | ⟨-, -, hto⟩
  · exact h
  · rcases hto with ⟨-, hhalf, -⟩ | ⟨-, hlatest⟩
    · exact .inl (hhalf.trans (Nat.div_le_self _ _))
    · exact .inr hlatest

theorem Moves.le {start now : ℕ} (h : Moves T messages workingSet start now) : start ≤ now := by
  rcases h with ⟨rfl, -⟩ | ⟨-, hon, -⟩
  · exact le_rfl
  · exact hon.le

theorem moves_concat (m : Message) : Moves T (messages ++ [m]) workingSet
    (readFrom T messages workingSet) (readFrom T (messages ++ [m]) workingSet) := by
  have hso : ReadSo (costAt T (messages ++ [m])) (isUser (messages ++ [m])) messages.length
    (readUpTo T (messages ++ [m]) workingSet messages.length) := readSo_foldl _
  have hfrom : readFrom T messages workingSet =
      (readUpTo T (messages ++ [m]) workingSet messages.length).1 := by
    rw [readUpTo_append T [m] le_rfl]
    rfl
  have hstep : readFrom T (messages ++ [m]) workingSet =
      (readStep (costAt T (messages ++ [m])) (isUser (messages ++ [m])) workingSet
        (readUpTo T (messages ++ [m]) workingSet messages.length) messages.length).1 := by
    rw [readFrom, List.length_append, List.length_singleton, List.range_succ, List.foldl_concat]
    rfl
  have hlength : (messages ++ [m]).length = messages.length + 1 := by simp
  rw [hfrom, hstep]
  generalize readUpTo T (messages ++ [m]) workingSet messages.length = now at hso
  obtain ⟨start, used⟩ := now
  obtain ⟨hbefore, hcost, hnewest⟩ := hso
  -- the newest of the person's is read, with the message more
  have hnext : ∀ u, Newest (isUser (messages ++ [m])) (messages.length + 1) u → start ≤ u := by
    intro u hu
    by_cases hlast : u = messages.length
    · exact hlast ▸ hbefore
    · have hlt := hu.1
      exact hnewest u ⟨by omega, hu.2.1, fun j hj hstop => hu.2.2 j hj (by omega)⟩
  rcases @readStep_moves _ _ workingSet _ _ _ hbefore hcost hnext with
    ⟨hstays, hreads⟩ | ⟨hon, hover, hto⟩
  · refine .stays hstays ?_
    rw [Reads, readCost, hlength]
    exact hreads
  · refine .moves ?_ hon ?_
    · rw [readCost, hlength]
      exact hover
    · rw [hlength]
      exact hto

theorem readFrom_le_append (more : List Message) :
    readFrom T messages workingSet ≤ readFrom T (messages ++ more) workingSet := by
  induction more using List.reverseRecOn with
  | nil => rw [List.append_nil]
  | append_singleton more m ih =>
    rw [← List.append_assoc]
    exact ih.trans (moves_concat T m).le

theorem readFrom_le_newest {u : ℕ} (h : Newest (isUser messages) messages.length u) :
    readFrom T messages workingSet ≤ u :=
  (readSo_foldl messages.length).newest u h

theorem reads_readFrom (messages : List Message) (workingSet : ℕ) :
    Reads T messages workingSet (readFrom T messages workingSet) := by
  rcases messages.eq_nil_or_concat with rfl | ⟨before, m, rfl⟩
  · exact .inl (Nat.zero_le _)
  · rw [List.concat_eq_append]
    exact (moves_concat T m).reads

end Growing

/-- **The window moves in big steps and never skips.** For every chat and working set, what is read
begins no later than the person's newest message, and fits the working set or begins at the latest:
the person's newest message, or the newest message where the person said nothing. It never moves back
as messages are added; with one more it moves only when what is read no longer fits, and then on to
the first of the person's messages from which at most half the working set is left, or to the latest
where there is none. -/
theorem window_moves (T : Texts) (messages : List Message) (workingSet : ℕ) :
    (∀ u, Newest (isUser messages) messages.length u → readFrom T messages workingSet ≤ u) ∧
      Reads T messages workingSet (readFrom T messages workingSet) ∧
      (∀ more, readFrom T messages workingSet ≤ readFrom T (messages ++ more) workingSet) ∧
      ∀ m, Moves T (messages ++ [m]) workingSet (readFrom T messages workingSet)
        (readFrom T (messages ++ [m]) workingSet) :=
  ⟨fun _ => readFrom_le_newest T, reads_readFrom T messages workingSet, readFrom_le_append T,
    moves_concat T⟩

/-- What was written to the person before they said anything. -/
def announced : Message where
  role := .assistant
  content := "Hi"

/-- In a chat where the person said nothing, the start moves to what no person said. -/
theorem nobody_said : readFrom asciiTexts [announced] 4 = 0 ∧
    readFrom asciiTexts [announced, announced] 4 = 1 ∧
    isUser [announced, announced] 1 = false := by
  decide +kernel

end LocalSpace.Prompts
