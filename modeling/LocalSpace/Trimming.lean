import LocalSpace.Reading

/-!
# The turns the model is given

`prompt.rs`'s `turns`, over the messages its reading begins with: the newest turns that fit, from the
first of the person's on; or else the person's newest, with the newest calls that fit beside it. The
pictures that are put with them afterwards, by counting the person's turns back from the end, are
those of the messages they were sent with.
-/

namespace LocalSpace.Prompts

/-! ### The newest that fit -/

section Taken

variable (T : Texts) {budget room used taken : ℕ} {rest : List Turn}

@[grind =]
def turnsCost (ts : List Turn) : ℕ :=
  (ts.map (turnCost T)).sum

theorem turnsCost_cons (t : Turn) (ts : List Turn) :
    turnsCost T (t :: ts) = turnCost T t + turnsCost T ts := by
  simp only [turnsCost, List.map_cons, List.sum_cons]

theorem turnsCost_append (xs ys : List Turn) :
    turnsCost T (xs ++ ys) = turnsCost T xs + turnsCost T ys := by
  simp only [turnsCost, List.map_append, List.sum_append]

theorem turnsCost_reverse (ts : List Turn) : turnsCost T ts.reverse = turnsCost T ts := by
  simp only [turnsCost, List.map_reverse, List.sum_reverse]

theorem turnCost_pos (t : Turn) : 0 < turnCost T t := by
  have hframes : 0 < frames t := by
    cases t <;> simp [frames, frameTokens]
  rw [turnCost]
  omega

/-- So many of the newest are taken, and they fit, unless it is the newest alone. -/
theorem newest_spec (budget : ℕ) (rest : List Turn) (used taken : ℕ) :
    ∃ k, k ≤ rest.length ∧ newest T budget rest used taken = taken + k ∧
      (k = 0 ∨ used + turnsCost T (rest.take k) ≤ budget ∨ taken = 0 ∧ k = 1) ∧
      (taken = 0 → rest ≠ [] → 0 < k) := by
  induction rest generalizing used taken with
  | nil => exact ⟨0, le_rfl, rfl, .inl rfl, fun _ h => absurd rfl h⟩
  | cons t older ih =>
    rw [newest]
    split
    · next hover => exact ⟨0, Nat.zero_le _, rfl, .inl rfl, fun h _ => by omega⟩
    · next hfits =>
      obtain ⟨k, hk, heq, hcost, -⟩ := ih (used + turnCost T t) (taken + 1)
      refine ⟨k + 1, Nat.succ_le_succ hk, by omega, .inr ?_, fun _ _ => Nat.succ_pos _⟩
      rw [List.take_succ_cons, turnsCost_cons]
      rcases hcost with rfl | hcost | ⟨hnone, -⟩
      · -- the one before it is over: it is the newest, or it fits
        have hnil : turnsCost T (older.take 0) = 0 := rfl
        omega
      · omega
      · omega

/-- So many of the newest calls fit beside the person's request; none do where the newest does not. -/
theorem beside_spec (room : ℕ) (rest : List Turn) (used taken : ℕ) :
    ∃ k, k ≤ rest.length ∧ beside T room rest used taken = taken + k ∧
      (k = 0 ∨ used + turnsCost T (rest.take k) ≤ room) ∧
      (∀ t older, rest = t :: older → (k = 0 ↔ room < used + turnCost T t)) := by
  induction rest generalizing used taken with
  | nil => exact ⟨0, le_rfl, rfl, .inl rfl, fun t older h => nomatch h⟩
  | cons t older ih =>
    rw [beside]
    split
    · next hover =>
      refine ⟨0, Nat.zero_le _, rfl, .inl rfl, fun t' older' h => ?_⟩
      rw [← (List.cons.inj h).1]
      exact iff_of_true rfl hover
    · next hfits =>
      obtain ⟨k, hk, heq, hcost, -⟩ := ih (used + turnCost T t) (taken + 1)
      refine ⟨k + 1, Nat.succ_le_succ hk, by omega, .inr ?_, fun t' older' h => ?_⟩
      · rw [List.take_succ_cons, turnsCost_cons]
        rcases hcost with rfl | hcost
        · have hnil : turnsCost T (older.take 0) = 0 := rfl
          omega
        · omega
      · rw [← (List.cons.inj h).1]
        exact iff_of_false (Nat.succ_ne_zero _) hfits

end Taken

/-! ### What is given of the turns there are -/

/-- What is given of all the turns there are. -/
inductive Gives (T : Texts) (budget : ℕ) (all given : List Turn) : Prop
  /-- The newest that fit, from the first of the person's on. -/
  | read (before passed : List Turn) (person : Turn) (later : List Turn)
    (hall : all = before ++ (passed ++ person :: later))
    (hpassed : ∀ t ∈ passed, t.isPerson = false) (hperson : person.isPerson = true)
    (hgiven : given = person :: later)
    (hfits : turnsCost T (passed ++ person :: later) ≤ budget ∨ later = [])
    (hwhole : turnsCost T all ≤ budget → before = [])
  /-- The newest that fit, where the person said nothing. -/
  | nobody (before : List Turn) (hall : all = before ++ given)
    (hnone : ∀ t ∈ all, t.isPerson = false)
    (hfits : turnsCost T given ≤ budget ∨ given.length = 1)
    (hwhole : turnsCost T all ≤ budget → before = [])
  /-- The person's request, with the newest calls that fit beside it. -/
  | asked (before : List Turn) (person : Turn) (between calls : List Turn)
    (hall : all = before ++ person :: (between ++ calls)) (hperson : person.isPerson = true)
    (hnone : ∀ t ∈ between ++ calls, t.isPerson = false) (hgiven : given = person :: calls)
    (hcalls : calls ≠ []) (hfits : turnsCost T given ≤ budget) (hover : budget < turnsCost T all)
  /-- The newest that fit, where not even the newest call fits beside the person's request. -/
  | full (before : List Turn) (person : Turn) (between : List Turn) (last : Turn)
    (older : List Turn) (hall : all = before ++ person :: (between ++ given))
    (hperson : person.isPerson = true) (hnone : ∀ t ∈ between ++ given, t.isPerson = false)
    (hlast : given = older ++ [last]) (hroom : budget < turnCost T person + turnCost T last)
    (hfits : turnsCost T given ≤ budget ∨ given.length = 1)

theorem turnCost_le {T : Texts} {t : Turn} {ts : List Turn} (h : t ∈ ts) :
    turnCost T t ≤ turnsCost T ts := by
  obtain ⟨before, later, rfl⟩ := List.append_of_mem h
  rw [turnsCost_append, turnsCost_cons]
  omega

/-- A list up to the last of a kind, and what comes after it. -/
theorem split_findIdx?_reverse {α : Type*} {P : α → Bool} {l : List α} {back : ℕ}
    (h : l.reverse.findIdx? P = some back) :
    ∃ before a passed, l = before ++ a :: passed ∧ passed.length = back ∧ P a = true ∧
      ∀ x ∈ passed, P x = false := by
  obtain ⟨hlt, ha, hno⟩ := List.findIdx?_eq_some_iff_getElem.mp h
  have hsplit : l.reverse = l.reverse.take back ++ l.reverse[back] :: l.reverse.drop (back + 1) := by
    rw [List.getElem_cons_drop, List.take_append_drop]
  refine ⟨(l.reverse.drop (back + 1)).reverse, l.reverse[back], (l.reverse.take back).reverse, ?_,
    ?_, ha, fun x hx => ?_⟩
  · have hback := congrArg List.reverse hsplit
    rw [List.reverse_reverse, List.reverse_append, List.reverse_cons, List.append_assoc] at hback
    exact hback
  · rw [List.length_reverse, List.length_take]
    omega
  · obtain ⟨j, hj, rfl⟩ := List.mem_iff_getElem.mp (List.mem_reverse.mp hx)
    rw [List.length_take] at hj
    rw [List.getElem_take]
    exact Bool.not_eq_true _ ▸ hno j (by omega)

theorem turns_gives (T : Texts) (messages : List Message) (budget : ℕ) :
    Gives T budget (messages.flatMap turnsOf) (turns T messages budget) := by
  rw [turns]
  generalize messages.flatMap turnsOf = all
  dsimp only
  obtain ⟨k, hk, hnewest, hcost, hsome⟩ := newest_spec T budget all.reverse 0 0
  have hwhole : turnsCost T all ≤ budget → k = all.length := by
    intro h
    have hall := @newest_all T budget all.reverse 0 0 (by
      rw [List.map_reverse, List.sum_reverse, Nat.zero_add]
      exact h)
    rw [hnewest, List.length_reverse] at hall
    omega
  rw [hnewest, Nat.zero_add]
  rw [List.length_reverse] at hk
  have htake : all.reverse.take k = (all.drop (all.length - k)).reverse := by
    rw [List.take_reverse]
  rw [htake, turnsCost_reverse] at hcost
  -- what comes before what is taken, and what is taken
  obtain ⟨before, read, hall, hbefore⟩ : ∃ before read, all = before ++ read ∧
      all.length - k = before.length :=
    ⟨all.take (all.length - k), all.drop (all.length - k), (List.take_append_drop _ _).symm, by
      rw [List.length_take]
      omega⟩
  subst hall
  rw [hbefore, List.drop_left, Nat.zero_add] at hcost
  rw [hbefore, List.drop_left, List.take_left]
  rw [List.length_append] at hk hbefore hwhole
  have hread : read.length = k := by omega
  have hfits : turnsCost T read ≤ budget ∨ read.length = 1 := by
    rcases hcost with rfl | hcost | ⟨-, rfl⟩
    · rw [List.eq_nil_of_length_eq_zero hread]
      exact .inl (Nat.zero_le _)
    · exact .inl hcost
    · exact .inr hread
  have hnil : turnsCost T (before ++ read) ≤ budget → before = [] := fun h =>
    List.eq_nil_of_length_eq_zero (by have := hwhole h; omega)
  rcases hfind : read.findIdx? Turn.isPerson with _ | person
  · rw [List.findIdx?_eq_none_iff] at hfind
    rcases hback : before.reverse.findIdx? Turn.isPerson with _ | back
    · rw [List.findIdx?_eq_none_iff] at hback
      refine .nobody before rfl (fun t ht => ?_) hfits hnil
      rcases List.mem_append.mp ht with ht | ht
      · exact hback t (List.mem_reverse.mpr ht)
      · exact hfind t ht
    · -- the person's newest comes before what is taken
      obtain ⟨before, person, passed, rfl, rfl, hperson, hpassed⟩ := split_findIdx?_reverse hback
      have hno : ∀ t ∈ passed ++ read, t.isPerson = false := fun t ht =>
        (List.mem_append.mp ht).elim (hpassed t) (hfind t)
      have hlast : read ≠ [] := by
        rintro rfl
        have hpos := hsome rfl (by simp)
        rw [← hread] at hpos
        exact absurd hpos (Nat.lt_irrefl _)
      have hat : (before ++ person :: passed).length - 1 - passed.length = before.length := by
        rw [List.length_append, List.length_cons]
        omega
      dsimp only
      rw [hat, List.append_assoc, List.cons_append, List.drop_left, List.take_succ_cons,
        List.take_zero, List.map_singleton, List.sum_singleton, List.drop_length_add_append,
        List.drop_succ_cons, List.drop_zero]
      obtain ⟨n, hn, hbeside, hcalls, hnone⟩ :=
        beside_spec T (budget - turnCost T person) (passed ++ read).reverse 0 0
      rw [hbeside, Nat.zero_add]
      split
      · next hzero =>
        obtain ⟨older, last, rfl⟩ := List.eq_nil_or_concat' read |>.resolve_left hlast
        have hroom := (hnone last (passed ++ older).reverse (by simp)).mp hzero
        refine .full before person passed last older rfl hperson hno rfl ?_ hfits
        omega
      · next hcalled =>
        rw [List.length_reverse] at hn
        rw [List.take_reverse, turnsCost_reverse] at hcalls
        generalize hlater : passed ++ read = later at hn hcalls hno
        have hdrop : (before ++ person :: later).drop ((before ++ person :: later).length - n) =
            later.drop (later.length - n) := by
          have hat : (before ++ person :: later).length - n =
              before.length + 1 + (later.length - n) := by
            rw [List.length_append, List.length_cons]
            omega
          rw [hat, Nat.add_assoc, List.drop_length_add_append, Nat.add_comm 1, List.drop_succ_cons]
        have hne : later.drop (later.length - n) ≠ [] := by
          rw [Ne, List.drop_eq_nil_iff]
          omega
        obtain ⟨call, hcall⟩ := List.exists_mem_of_ne_nil _ hne
        have hpos := turnCost_pos T call
        have hle := turnCost_le (T := T) hcall
        rw [hdrop, List.singleton_append]
        refine .asked before person (later.take (later.length - n)) _ ?_ hperson ?_ rfl hne ?_ ?_
        · rw [List.take_append_drop]
        · rwa [List.take_append_drop]
        · rw [turnsCost_cons]
          omega
        · by_contra hwhole
          have hempty := hnil (by
            rw [List.append_assoc, List.cons_append, hlater]
            omega)
          simp at hempty
  · obtain ⟨hlt, hperson, hno⟩ := List.findIdx?_eq_some_iff_getElem.mp hfind
    have hsplit : read = read.take person ++ read[person] :: read.drop (person + 1) := by
      rw [List.getElem_cons_drop, List.take_append_drop]
    dsimp only
    refine .read before (read.take person) read[person] (read.drop (person + 1))
      (by rw [← hsplit]) (fun t ht => ?_) hperson ?_ ?_ hnil
    · obtain ⟨j, hj, rfl⟩ := List.mem_iff_getElem.mp ht
      rw [List.length_take] at hj
      rw [List.getElem_take]
      exact Bool.not_eq_true _ ▸ hno j (by omega)
    · rw [List.drop_append, List.drop_eq_nil_of_le (Nat.le_add_right _ _), List.nil_append,
        Nat.add_sub_cancel_left, List.getElem_cons_drop]
    · rw [← hsplit]
      refine hfits.imp_right fun h => List.drop_eq_nil_of_le ?_
      omega

/-! ### What is given is what is read -/

section Read

variable {T : Texts} {budget : ℕ} {all given : List Turn}

/-- The turns from the first of the person's on; or all of them, where the person said nothing. -/
def fromPerson (ts : List Turn) : List Turn :=
  if ts.any Turn.isPerson then ts.dropWhile fun t => !t.isPerson else ts

/-- The newest call does not fit beside the person's request. -/
def Crowded (T : Texts) (budget : ℕ) (person : Turn) (later : List Turn) : Prop :=
  ∃ older last, later = older ++ [last] ∧ budget < turnCost T person + turnCost T last

theorem Gives.whole (h : Gives T budget all given) (hfits : turnsCost T all ≤ budget) :
    given = fromPerson all := by
  rcases h with ⟨before, passed, person, later, rfl, hpassed, hperson, rfl, -, hwhole⟩ |
    ⟨before, rfl, hnone, -, hwhole⟩ | ⟨before, person, between, calls, -, -, -, -, -, -, hover⟩ |
    ⟨before, person, between, last, older, rfl, -, -, rfl, hroom, -⟩
  · rw [hwhole hfits, List.nil_append, fromPerson, if_pos (by simp [hperson]),
      List.dropWhile_append_of_pos fun t ht => by simp [hpassed t ht],
      List.dropWhile_cons_of_neg (by simp [hperson])]
  · have hany : given.any Turn.isPerson = false :=
      List.any_eq_false.mpr fun t ht => by simp [hnone t (List.mem_append_right _ ht)]
    rw [hwhole hfits, List.nil_append, fromPerson, hany, if_neg Bool.false_ne_true]
  · omega
  · simp only [turnsCost_append, turnsCost_cons] at hfits
    omega

theorem Gives.fits (h : Gives T budget all given) :
    turnsCost T given ≤ budget ∨ given.length = 1 := by
  rcases h with ⟨before, passed, person, later, -, -, -, rfl, hfits, -⟩ | ⟨-, -, -, hfits, -⟩ |
    ⟨-, -, -, -, -, -, -, -, -, hfits, -⟩ | ⟨-, -, -, -, -, -, -, -, -, -, hfits⟩
  · rcases hfits with hfits | rfl
    · rw [turnsCost_append] at hfits
      exact .inl (by omega)
    · exact .inr rfl
  · exact hfits
  · exact .inl hfits
  · exact hfits

/-- What is given is a suffix, or the person's newest and a suffix of what follows it. -/
theorem Gives.suffix (h : Gives T budget all given) :
    given <:+ all ∨ ∃ before person later calls, all = before ++ person :: later ∧
      person.isPerson = true ∧ (∀ t ∈ later, t.isPerson = false) ∧ given = person :: calls ∧
      calls <:+ later := by
  rcases h with ⟨before, passed, person, later, rfl, -, -, rfl, -, -⟩ | ⟨before, rfl, -, -, -⟩ |
    ⟨before, person, between, calls, rfl, hperson, hnone, rfl, -, -, -⟩ |
    ⟨before, person, between, last, older, rfl, -, -, -, -, -⟩
  · rw [← List.append_assoc]
    exact .inl (List.suffix_append _ _)
  · exact .inl (List.suffix_append _ _)
  · exact .inr ⟨before, person, between ++ calls, calls, rfl, hperson, hnone, rfl,
      List.suffix_append _ _⟩
  · exact .inl ((List.suffix_append between _).trans
      ((List.suffix_cons person _).trans (List.suffix_append before _)))

/-- The place of the last of a kind in a list is one place. -/
theorem split_last_unique {α : Type*} {P : α → Bool} {before before' after after' : List α} {a a' : α}
    (h : before ++ a :: after = before' ++ a' :: after') (ha : P a = true) (ha' : P a' = true)
    (hafter : ∀ x ∈ after, P x = false) (hafter' : ∀ x ∈ after', P x = false) :
    before = before' ∧ a = a' ∧ after = after' := by
  rcases List.append_eq_append_iff.mp h with ⟨mid, rfl, hmid⟩ | ⟨mid, rfl, hmid⟩
  · rcases mid with _ | ⟨b, mid⟩
    · obtain ⟨rfl, rfl⟩ := List.cons.inj hmid
      exact ⟨(List.append_nil _).symm, rfl, rfl⟩
    · obtain ⟨-, rfl⟩ := List.cons.inj hmid
      have hno := hafter a' (List.mem_append_right _ List.mem_cons_self)
      rw [ha'] at hno
      cases hno
  · rcases mid with _ | ⟨b, mid⟩
    · obtain ⟨rfl, rfl⟩ := List.cons.inj hmid
      exact ⟨List.append_nil _, rfl, rfl⟩
    · obtain ⟨-, rfl⟩ := List.cons.inj hmid
      have hno := hafter' a (List.mem_append_right _ List.mem_cons_self)
      rw [ha] at hno
      cases hno

/-- Where the person's newest is followed by `after`, it is given, with the newest of what follows,
exactly where the newest of all fits beside it. -/
theorem Gives.newest_iff {before after : List Turn} {person : Turn}
    (h : Gives T budget (before ++ person :: after) given) (hperson : person.isPerson = true)
    (hafter : ∀ t ∈ after, t.isPerson = false) :
    (∃ earlier calls, given = earlier ++ person :: calls ∧ calls <:+ after) ↔
      ¬ Crowded T budget person after := by
  rcases h with ⟨before', passed, first, later, hall, hpassed, hfirst, rfl, hfits, -⟩ |
    ⟨before', hall, hnone, -, -⟩ |
    ⟨before', asked, between, calls, hall, hasked, hnone, rfl, hcalls, hfits, -⟩ |
    ⟨before', asked, between, last, older, hall, hasked, hnone, hlast, hroom, -⟩
  · -- the newest of the person's is among what is read, and all that follows it
    obtain ⟨earlier, hearlier⟩ : ∃ earlier, first :: later = earlier ++ person :: after := by
      rw [← List.append_assoc] at hall
      rcases List.append_eq_append_iff.mp hall with ⟨mid, -, hmid⟩ | ⟨mid, -, hmid⟩
      · rcases mid with _ | ⟨b, mid⟩
        · exact ⟨[], hmid.symm⟩
        · obtain ⟨-, rfl⟩ := List.cons.inj hmid
          have hno := hafter first (List.mem_append_right _ List.mem_cons_self)
          rw [hfirst] at hno
          cases hno
      · exact ⟨mid, hmid⟩
    refine iff_of_true ⟨earlier, after, hearlier, List.suffix_rfl⟩ ?_
    rintro ⟨older, last, rfl, hroom⟩
    rcases hfits with hfits | rfl
    · rw [hearlier] at hfits
      simp only [turnsCost_append, turnsCost_cons] at hfits
      omega
    · have hlength := congrArg List.length hearlier
      simp only [List.length_append, List.length_cons, List.length_nil] at hlength
      omega
  · have hno := hnone person (List.mem_append_right _ List.mem_cons_self)
    rw [hperson] at hno
    cases hno
  · obtain ⟨rfl, rfl, rfl⟩ := split_last_unique hall hperson hasked hafter hnone
    refine iff_of_true ⟨[], calls, rfl, List.suffix_append _ _⟩ ?_
    rintro ⟨older, last, hlater, hroom⟩
    obtain ⟨older', last', rfl⟩ := (List.eq_nil_or_concat' calls).resolve_left hcalls
    rw [← List.append_assoc] at hlater
    obtain ⟨-, hlast⟩ := List.append_inj' hlater rfl
    obtain rfl := List.singleton_inj.mp hlast
    simp only [turnsCost_append, turnsCost_cons] at hfits
    omega
  · obtain ⟨rfl, rfl, rfl⟩ := split_last_unique hall hperson hasked hafter hnone
    refine iff_of_false ?_ (not_not_intro ⟨between ++ older, last, by
      rw [hlast, List.append_assoc], hroom⟩)
    rintro ⟨earlier, calls, rfl, -⟩
    have hno := hafter person (by simp)
    rw [hperson] at hno
    cases hno

end Read

section Chat

variable {T : Texts} {budget : ℕ} {messages : List Message}

theorem turnsOf_person {m : Message} (hm : m.role = .user) :
    turnsOf m = .person m.content :: callsOf m := by
  rw [turnsOf, saidOf, hm, List.singleton_append]

theorem turnsOf_plain {m : Message} (hm : m.role ≠ .user) {t : Turn} (ht : t ∈ turnsOf m) :
    t.isPerson = false := by
  rcases List.mem_append.mp ht with ht | ht
  · exact (saidOf_plain hm ht).1
  · exact (callsOf_plain ht).1

/-- Where the person's newest message is in a chat. -/
theorem newest_of_split {before later : List Message} {m : Message} (hm : m.role = .user)
    (hlater : ∀ x ∈ later, x.role ≠ .user) :
    Newest (isUser (before ++ m :: later)) (before ++ m :: later).length before.length := by
  refine ⟨by simp, by simp [isUser, hm], fun j hj hlt => ?_⟩
  rw [isUser, List.getElem?_append_right hj.le]
  rw [List.length_append, List.length_cons] at hlt
  obtain ⟨n, hn⟩ : ∃ n, j - before.length = n + 1 := ⟨j - before.length - 1, by omega⟩
  rw [hn, List.getElem?_cons_succ, List.getElem?_eq_getElem (by omega), Option.any_some,
    decide_eq_false_iff_not]
  exact hlater _ (List.getElem_mem _)

end Chat

/-- What the model is given of a chat. -/
def givenOf (T : Texts) (messages : List Message) (budget : ℕ) : List Turn :=
  turns T (messages.drop (readFrom T messages budget)) budget

/-- The turns of what is read of a chat. -/
def readTurns (T : Texts) (messages : List Message) (budget : ℕ) : List Turn :=
  (messages.drop (readFrom T messages budget)).flatMap turnsOf

/-- **What the model reads is what the divider says.** For every chat and budget: if the messages from
where the reading begins fit the budget, their turns are given from the first of the person's on, and
all of them where the person said nothing; otherwise a suffix of them is given, or the person's newest
and a suffix of what follows it; what is given is within the budget, or one turn. Where the person
said something, the newest of it is given exactly where nothing follows it, or the newest turn of
what follows fits beside it. -/
theorem given_of_read (T : Texts) (messages : List Message) (budget : ℕ) :
    (((messages.drop (readFrom T messages budget)).map (cost T)).sum ≤ budget →
      givenOf T messages budget = fromPerson (readTurns T messages budget)) ∧
    (givenOf T messages budget <:+ readTurns T messages budget ∨
      ∃ before person later calls, readTurns T messages budget = before ++ person :: later ∧
        person.isPerson = true ∧ (∀ t ∈ later, t.isPerson = false) ∧
        givenOf T messages budget = person :: calls ∧ calls <:+ later) ∧
    (turnsCost T (givenOf T messages budget) ≤ budget ∨ (givenOf T messages budget).length = 1) ∧
    ∀ before m later, messages = before ++ m :: later → m.role = .user →
      (∀ x ∈ later, x.role ≠ .user) →
      ((∃ earlier calls, givenOf T messages budget = earlier ++ .person m.content :: calls ∧
          calls <:+ callsOf m ++ later.flatMap turnsOf) ↔
        ¬ Crowded T budget (.person m.content) (callsOf m ++ later.flatMap turnsOf)) := by
  have hgives : Gives T budget (readTurns T messages budget) (givenOf T messages budget) :=
    turns_gives T _ _
  refine ⟨fun hfits => hgives.whole ((turnCosts_le _).trans hfits), hgives.suffix,
    hgives.fits, ?_⟩
  rintro before m later rfl hm hlater
  have hle : readFrom T (before ++ m :: later) budget ≤ before.length :=
    readFrom_le_newest T (newest_of_split hm hlater)
  have hread : readTurns T (before ++ m :: later) budget =
      (before.drop (readFrom T (before ++ m :: later) budget)).flatMap turnsOf ++
        .person m.content :: (callsOf m ++ later.flatMap turnsOf) := by
    rw [readTurns, List.drop_append_of_le_length hle, List.flatMap_append, List.flatMap_cons,
      turnsOf_person hm, List.cons_append]
  rw [hread] at hgives
  refine hgives.newest_iff rfl fun t ht => ?_
  rcases List.mem_append.mp ht with ht | ht
  · exact (callsOf_plain ht).1
  · obtain ⟨x, hx, ht⟩ := List.mem_flatMap.mp ht
    exact turnsOf_plain (hlater x hx) ht

/-- A short answer. -/
@[grind =]
def answered : Message where
  role := .assistant
  content := "A map."

/-- An answer that does not fit beside its question is given without it. -/
theorem question_left : isUser [question 0, answered] 0 = true ∧
    (givenOf asciiTexts [question 0, answered] 12).any Turn.isPerson = false := by
  decide +kernel

/-! ### The pictures -/

section Pictures

variable {pictures : ℕ → List Picture}

/-- The turns of messages, each with its message's place in the chat. -/
@[grind =]
def tagFrom : ℕ → List Message → List (ℕ × Turn)
  | _, [] => []
  | n, m :: rest => (turnsOf m).map (Prod.mk n) ++ tagFrom (n + 1) rest

def tagged (messages : List Message) : List (ℕ × Turn) :=
  tagFrom 0 messages

/-- A message's place among the person's messages of the chat. -/
@[grind =]
def ordinalOf (messages : List Message) (i : ℕ) : ℕ :=
  (personsOf (messages.take i)).length

/-- A turn with what was sent with its message: the person's carry their pictures. -/
def carrying (sent : ℕ → List Picture) : ℕ × Turn → Turn
  | (i, .person text) => if sent i = [] then .person text else .picture text (sent i)
  | (_, t) => t

theorem carrying_plain {sent : ℕ → List Picture} {x : ℕ × Turn} (h : x.2.isPerson = false) :
    carrying sent x = x.2 := by
  obtain ⟨i, t⟩ := x
  cases t with
  | person text => cases h
  | _ => rfl

theorem map_snd_tagFrom (n : ℕ) (messages : List Message) :
    (tagFrom n messages).map Prod.snd = messages.flatMap turnsOf := by
  induction messages generalizing n with
  | nil => rfl
  | cons m rest ih =>
    rw [tagFrom, List.map_append, List.map_map, ih, List.flatMap_cons]
    congr 1
    exact List.map_id _

theorem le_of_mem_tagFrom {n : ℕ} {messages : List Message} {x : ℕ × Turn}
    (h : x ∈ tagFrom n messages) : n ≤ x.1 := by
  induction messages generalizing n with
  | nil => cases h
  | cons m rest ih =>
    rcases List.mem_append.mp h with h | h
    · obtain ⟨t, -, rfl⟩ := List.mem_map.mp h
      exact le_rfl
    · exact Nat.le_of_succ_le (ih h)

theorem personsOf_cons (m : Message) (rest : List Message) :
    (personsOf (m :: rest)).length = (if m.role = .user then 1 else 0) + (personsOf rest).length := by
  by_cases hm : m.role = .user <;> simp [personsOf, hm, Nat.add_comm]

/-- Put with a whole chat's turns from a place among the person's messages on, the pictures are put
with their own messages. -/
theorem placePictures_tagFrom (n k : ℕ) (messages : List Message) :
    placePictures pictures k (messages.flatMap turnsOf) =
      (tagFrom n messages).map (carrying fun i => pictures (k + ordinalOf messages (i - n))) := by
  induction messages generalizing n k with
  | nil => rfl
  | cons m rest ih =>
    rw [List.flatMap_cons, placePictures_append, countP_turnsOf, tagFrom, List.map_append, ih (n + 1)]
    congr 1
    · have hcalls : ∀ sent, (callsOf m).map (fun t => carrying sent (n, t)) = callsOf m := by
        intro sent
        conv_rhs => rw [← List.map_id (callsOf m)]
        exact List.map_congr_left fun t ht => carrying_plain (callsOf_plain ht).1
      rw [List.map_map]
      by_cases hm : m.role = .user
      · rw [turnsOf_person hm, placePictures, placePictures_none _ fun t ht => (callsOf_plain ht).1,
          List.map_cons]
        have hfirst : ordinalOf (m :: rest) (n - n) = 0 := by
          rw [Nat.sub_self]
          rfl
        refine congrArg₂ _ ?_ (hcalls _).symm
        simp only [Function.comp_apply, carrying, hfirst, Nat.add_zero]
      · rw [placePictures_none _ fun t => turnsOf_plain hm]
        conv_lhs => rw [← List.map_id (turnsOf m)]
        exact List.map_congr_left fun t ht =>
          (@carrying_plain _ (n, t) (turnsOf_plain hm ht)).symm
    · refine List.map_congr_left fun x hx => ?_
      have hle := le_of_mem_tagFrom hx
      have hat : x.1 - n = x.1 - (n + 1) + 1 := by omega
      have hordinal : ordinalOf (m :: rest) (x.1 - n) =
          (if m.role = .user then 1 else 0) + ordinalOf rest (x.1 - (n + 1)) := by
        rw [hat, ordinalOf, List.take_succ_cons, personsOf_cons, ordinalOf]
      obtain ⟨i, t⟩ := x
      simp only [carrying] at hordinal ⊢
      cases t with
      | person text => simp only [hordinal, Nat.add_assoc]
      | _ => rfl

theorem length_placePictures (k : ℕ) (ts : List Turn) :
    (placePictures pictures k ts).length = ts.length := by
  induction ts generalizing k with
  | nil => rfl
  | cons t rest ih =>
    rcases t with text | _ | _ | _ <;> simp [placePictures, ih]

/-- The turns that are kept of a chat's: the newest, or the person's newest and the newest of what
follows it. -/
def Keeps (all kept : List (ℕ × Turn)) : Prop :=
  kept <:+ all ∨ ∃ before person later calls, all = before ++ person :: later ∧
    person.2.isPerson = true ∧ (∀ x ∈ later, x.2.isPerson = false) ∧ kept = person :: calls ∧
    calls <:+ later

theorem map_carrying_plain {sent : ℕ → List Picture} {l : List (ℕ × Turn)}
    (h : ∀ x ∈ l, x.2.isPerson = false) : l.map (carrying sent) = l.map Prod.snd :=
  List.map_congr_left fun x hx => carrying_plain (h x hx)

theorem countP_plain {l : List (ℕ × Turn)} (h : ∀ x ∈ l, x.2.isPerson = false) :
    (l.map Prod.snd).countP Turn.isPerson = 0 := by
  rw [List.countP_map]
  exact List.countP_eq_zero.mpr fun x hx => by simp [h x hx]

/-- The pictures put with what is kept, by counting back from the end, are those put with the whole
chat's. -/
theorem withPictures_kept {messages : List Message} {kept : List (ℕ × Turn)}
    (h : Keeps (tagged messages) kept) :
    withPictures (kept.map Prod.snd) pictures (personsOf messages).length =
      kept.map (carrying fun i => pictures (ordinalOf messages i)) := by
  have hwhole : placePictures pictures 0 ((tagged messages).map Prod.snd) =
      (tagged messages).map (carrying fun i => pictures (ordinalOf messages i)) := by
    rw [tagged, map_snd_tagFrom, placePictures_tagFrom 0 0]
    simp only [Nat.zero_add, Nat.sub_zero]
  have hcount : ((tagged messages).map Prod.snd).countP Turn.isPerson =
      (personsOf messages).length := by
    rw [tagged, map_snd_tagFrom, countP_flatMap]
  rw [withPictures]
  rcases h with ⟨before, hall⟩ | ⟨before, person, later, calls, hall, hperson, hlater, rfl, hcalls⟩
  · rw [← hall, List.map_append, List.countP_append] at hcount
    rw [← hall, List.map_append, placePictures_append, List.map_append] at hwhole
    have hat : (personsOf messages).length - (kept.map Prod.snd).countP Turn.isPerson =
        0 + (before.map Prod.snd).countP Turn.isPerson := by omega
    rw [hat]
    refine (List.append_inj' hwhole ?_).2
    rw [length_placePictures, List.length_map, List.length_map]
  · rw [hall, List.map_append, List.map_cons, List.countP_append, List.countP_cons_of_pos hperson,
      countP_plain hlater] at hcount
    rw [hall, List.append_cons, List.append_assoc, List.map_append, List.map_append,
      List.map_singleton, placePictures_append, placePictures_append, List.map_append,
      List.map_append] at hwhole
    have hcalls' : ∀ x ∈ calls, x.2.isPerson = false := fun x hx => hlater x (hcalls.mem hx)
    have hat : (personsOf messages).length - (1 + 0) =
        0 + (before.map Prod.snd).countP Turn.isPerson := by omega
    -- the person's newest has the pictures it has in the whole chat
    have hask := (List.append_inj (List.append_inj hwhole (by
      rw [length_placePictures, List.length_map, List.length_map])).2 (by
      rw [length_placePictures, List.length_singleton, List.length_map, List.length_singleton])).1
    have hplain : ∀ t ∈ calls.map Prod.snd, t.isPerson = false := by
      intro t ht
      obtain ⟨x, hx, rfl⟩ := List.mem_map.mp ht
      exact hcalls' x hx
    rw [List.map_cons, List.countP_cons_of_pos hperson, countP_plain hcalls', Nat.add_comm 0, hat,
      ← List.singleton_append, placePictures_append, hask, placePictures_none _ hplain]
    exact congrArg (_ :: ·) (map_carrying_plain hcalls').symm

theorem tagFrom_append (n : ℕ) (xs ys : List Message) :
    tagFrom n (xs ++ ys) = tagFrom n xs ++ tagFrom (n + xs.length) ys := by
  induction xs generalizing n with
  | nil => rfl
  | cons m rest ih =>
    rw [List.cons_append, tagFrom, ih, tagFrom, List.append_assoc, List.length_cons, Nat.add_assoc,
      Nat.add_comm 1]

theorem Keeps.more {before all kept : List (ℕ × Turn)} (h : Keeps all kept) :
    Keeps (before ++ all) kept := by
  rcases h with h | ⟨first, person, later, calls, rfl, hkept⟩
  · exact .inl (h.trans (List.suffix_append _ _))
  · exact .inr ⟨before ++ first, person, later, calls, (List.append_assoc _ _ _).symm, hkept⟩

/-- What is given of a chat is kept of its turns. -/
theorem keeps_given (T : Texts) (messages : List Message) (budget : ℕ) :
    ∃ kept, Keeps (tagged messages) kept ∧ kept.map Prod.snd = givenOf T messages budget := by
  have hsplit : tagged messages = tagFrom 0 (messages.take (readFrom T messages budget)) ++
      tagFrom (0 + (messages.take (readFrom T messages budget)).length)
        (messages.drop (readFrom T messages budget)) := by
    rw [← tagFrom_append, List.take_append_drop, tagged]
  generalize 0 + (messages.take (readFrom T messages budget)).length = n at hsplit
  have hread : (tagFrom n (messages.drop (readFrom T messages budget))).map Prod.snd =
      readTurns T messages budget := map_snd_tagFrom _ _
  rw [hsplit]
  generalize tagFrom n (messages.drop (readFrom T messages budget)) = read at hread
  have hgives : Gives T budget (readTurns T messages budget) (givenOf T messages budget) :=
    turns_gives T _ _
  rcases hgives.suffix with ⟨before, hsuffix⟩ |
    ⟨before, person, later, calls, hall, hperson, hlater, hgiven, between, hcalls⟩
  · rw [← hsuffix] at hread
    obtain ⟨before', kept, rfl, -, hkept⟩ := List.map_eq_append_iff.mp hread
    exact ⟨kept, Keeps.more (.inl (List.suffix_append _ _)), hkept⟩
  · rw [hall, ← hcalls] at hread
    obtain ⟨before', rest, rfl, -, hrest⟩ := List.map_eq_append_iff.mp hread
    obtain ⟨person', rest', rfl, hperson', hrest'⟩ := List.map_eq_cons_iff.mp hrest
    obtain ⟨between', calls', rfl, hbetween', hcalls'⟩ := List.map_eq_append_iff.mp hrest'
    have hlater' : ∀ x ∈ between' ++ calls', x.2.isPerson = false := by
      intro x hx
      refine hlater x.2 ?_
      rw [← hcalls, ← hrest']
      exact List.mem_map_of_mem hx
    refine ⟨person' :: calls', Keeps.more (.inr ⟨before', person', between' ++ calls', calls', rfl,
      hperson' ▸ hperson, hlater', rfl, List.suffix_append _ _⟩), ?_⟩
    rw [List.map_cons, hperson', hcalls', hgiven]

/-- **Pictures stay with their words.** For every chat, every budget and every assignment of pictures
to the person's messages: what is given is kept of the chat's turns, each with its message's place,
and with the pictures put with it, each of the person's turns carries those of its very message, and
no other turn carries any. -/
theorem pictures_stay (T : Texts) (messages : List Message) (budget : ℕ)
    (pictures : ℕ → List Picture) :
    ∃ kept, Keeps (tagged messages) kept ∧ kept.map Prod.snd = givenOf T messages budget ∧
      withPictures (givenOf T messages budget) pictures (personsOf messages).length =
        kept.map (carrying fun i => pictures (ordinalOf messages i)) := by
  obtain ⟨kept, hkeeps, hkept⟩ := keeps_given T messages budget
  refine ⟨kept, hkeeps, hkept, ?_⟩
  rw [← hkept]
  exact withPictures_kept hkeeps

end Pictures

end LocalSpace.Prompts
