import LocalSpace.Trimming

/-!
# The request and the engine's context

`agent.rs`'s request fits the context of the engine by Core's own count where what nothing was
reserved for fits what was reserved for what comes after the messages, and the chat from the person's
newest message on fits its room; or else, where `turns` leaves calls out, the newest turn does, and
no picture is read with the person's words (`request_fits`).
-/

namespace LocalSpace.Prompts

/-- The condition of a request, over the person's newest message and what follows it. -/
def Asked.Meets (T : Texts) (a : Asked) (m : Message) (later : List Message) : Prop :=
  if ((m :: later).map (cost T)).sum ≤ a.room T then a.unreserved T ≤ a.reserved
  else a.beyond T ≤ a.reserved ∧
    (∀ last, ((m :: later).flatMap turnsOf).getLast? = some last → turnCost T last ≤ a.room T) ∧
    (a.kept m = [] ∨
      Crowded T (a.room T) (.person m.content) (callsOf m ++ later.flatMap turnsOf))

section Sent

variable {T : Texts} {a : Asked}

theorem sentCost_drop_le {pictures : ℕ → List Picture} {k : ℕ} {ts : List Turn} {i : ℕ}
    (h : ∀ t ∈ ts.take i, t.isPerson = false) :
    sentCost T (placePictures pictures k (ts.drop i)) ≤
      sentCost T (placePictures pictures k ts) := by
  have hnone : (ts.take i).countP Turn.isPerson = 0 :=
    List.countP_eq_zero.mpr fun t ht => by
      rw [h t ht]
      exact Bool.false_ne_true
  conv_rhs => rw [← List.take_append_drop i ts, placePictures_append, hnone, Nat.add_zero,
    sentCost_append]
  exact Nat.le_add_left _ _

/-- What is sent of the chat costs no more than the messages that are read, and their marks. -/
theorem sent_cost (hfits : ((a.messages.drop (a.read T)).map (cost T)).sum ≤ a.room T) :
    sentCost T (a.sent T) ≤ ((a.messages.drop (a.read T)).map (cost T)).sum +
      ((a.messages.drop (a.read T)).map (a.marks T)).sum + sentCost T a.refused.toList := by
  have hturns : (((a.messages.drop (a.read T)).flatMap turnsOf).map (turnCost T)).sum ≤
      a.room T :=
    (turnCosts_le _).trans hfits
  obtain ⟨i, hread, hplain⟩ := turns_eq hturns
  -- the person's messages that are read are the last of the chat's
  have hsplit : a.persons = personsOf (a.messages.take (a.read T)) ++
      personsOf (a.messages.drop (a.read T)) := by
    rw [personsOf, personsOf, ← List.filter_append, List.take_append_drop]
    rfl
  have hcount : (((a.messages.drop (a.read T)).flatMap turnsOf).drop i).countP Turn.isPerson =
      (personsOf (a.messages.drop (a.read T))).length := by
    have hnone : (((a.messages.drop (a.read T)).flatMap turnsOf).take i).countP
        Turn.isPerson = 0 :=
      List.countP_eq_zero.mpr fun t ht => by
        rw [hplain t ht]
        exact Bool.false_ne_true
    rw [← countP_flatMap]
    conv_rhs => rw [← List.take_append_drop i ((a.messages.drop (a.read T)).flatMap turnsOf),
      List.countP_append, hnone, Nat.zero_add]
  have hplaced : ∀ pictures : Nat → List Picture,
      (∀ n, pictures ((personsOf (a.messages.take (a.read T))).length + n) =
        (((personsOf (a.messages.drop (a.read T)))[n]?).map a.kept).getD []) →
      sentCost T (placePictures pictures (personsOf (a.messages.take (a.read T))).length
        (((a.messages.drop (a.read T)).flatMap turnsOf).drop i)) ≤
          ((a.messages.drop (a.read T)).map (cost T)).sum +
            ((a.messages.drop (a.read T)).map (a.marks T)).sum :=
    fun pictures hpictures =>
      (sentCost_drop_le hplain).trans (placed_messages a _ _ hpictures)
  rw [Asked.sent, hread, sentCost_append]
  refine Nat.add_le_add_right ?_ _
  split
  · rw [withPictures, hcount, hsplit, List.length_append, Nat.add_sub_cancel]
    refine hplaced _ fun n => ?_
    rw [List.getElem?_append_right (Nat.le_add_right _ _), Nat.add_sub_cancel_left]
  · next hnone =>
    rw [Bool.not_eq_true, List.any_eq_false] at hnone
    rw [← placePictures_nil (personsOf (a.messages.take (a.read T))).length
      (((a.messages.drop (a.read T)).flatMap turnsOf).drop i)]
    refine hplaced _ fun n => ?_
    cases hperson : (personsOf (a.messages.drop (a.read T)))[n]? with
    | none => rfl
    | some m =>
      have hmem : m ∈ a.persons := by
        rw [hsplit]
        exact List.mem_append_right _ (List.mem_of_getElem? hperson)
      have hempty : m.attachments = [] := by simpa using hnone m hmem
      rw [Option.map_some, Option.getD_some, Asked.kept, hempty]
      rfl

/-- Where the turns of the person's newest message do not fit, reading begins with it. -/
theorem read_newest {before later : List Message} {m : Message} (hm : m.role = .user)
    (hlater : ∀ x ∈ later, x.role ≠ .user) (hsplit : a.messages = before ++ m :: later)
    (hover : a.room T < ((m :: later).map (cost T)).sum) : a.read T = before.length := by
  have hnewest : Newest (isUser a.messages) a.messages.length before.length := by
    rw [hsplit]
    exact newest_of_split hm hlater
  have hle : a.read T ≤ before.length := readFrom_le_newest T hnewest
  rcases reads_readFrom T a.messages (a.room T) with hfits | hlatest | ⟨hnobody, -⟩
  · rw [readCost, costFrom_costAt, ← Asked.read, hsplit, List.drop_append_of_le_length hle,
      List.map_append, List.sum_append] at hfits
    omega
  · exact hlatest.unique hnewest
  · exact absurd (hnobody _ hnewest.1) (by rw [hnewest.2.1]; exact Bool.false_ne_true.symm)

/-- What is given costs no more than the budget where the newest turn does not. -/
theorem Gives.within {budget : ℕ} {all given : List Turn} (h : Gives T budget all given)
    (hlast : ∀ last, all.getLast? = some last → turnCost T last ≤ budget) :
    turnsCost T given ≤ budget := by
  have hone : ∀ t before, all = before ++ [t] → turnsCost T [t] ≤ budget := by
    rintro t before rfl
    rw [turnsCost, List.map_singleton, List.sum_singleton]
    exact hlast t List.getLast?_concat
  rcases h with ⟨before, passed, person, later, hall, -, -, rfl, hfits | rfl, -⟩ |
    ⟨before, hall, -, hfits | hlength, -⟩ | ⟨-, -, -, -, -, -, -, -, -, hfits, -⟩ |
    ⟨before, person, between, last, older, hall, -, -, rfl, -, hfits | hlength⟩
  · rw [turnsCost_append] at hfits
    omega
  · exact hone person (before ++ passed) (by rw [hall, List.append_assoc])
  · exact hfits
  · obtain ⟨t, rfl⟩ := List.length_eq_one_iff.mp hlength
    exact hone t before hall
  · exact hfits
  · exact hfits
  · obtain rfl : older = [] := by simpa using hlength
    exact hone last (before ++ person :: between) (by rw [hall]; simp)

/-- Where the newest turn does not fit beside the person's words, nothing of the person's is
given. -/
theorem Gives.crowded {budget : ℕ} {person : Turn} {after given : List Turn}
    (h : Gives T budget (person :: after) given) (hperson : person.isPerson = true)
    (hafter : ∀ t ∈ after, t.isPerson = false) (hcrowded : Crowded T budget person after) :
    ∀ t ∈ given, t.isPerson = false := by
  have hnone := mt (@Gives.newest_iff T budget given [] after person h hperson hafter).mp
    (not_not_intro hcrowded)
  rcases h.suffix with hsuffix | ⟨before, person', later, calls, hall, hperson', hlater, rfl, hcalls⟩
  · rcases List.suffix_cons_iff.mp hsuffix with rfl | hsuffix
    · exact absurd ⟨[], after, rfl, List.suffix_rfl⟩ hnone
    · exact fun t ht => hafter t (hsuffix.mem ht)
  · rw [← List.nil_append (person :: after)] at hall
    obtain ⟨-, rfl, rfl⟩ := split_last_unique hall hperson hperson' hafter hlater
    exact absurd ⟨[], calls, rfl, hcalls⟩ hnone

theorem Gives.sublist {budget : ℕ} {all given : List Turn} (h : Gives T budget all given) :
    given.Sublist all := by
  rcases h.suffix with hsuffix | ⟨before, person, later, calls, rfl, -, -, rfl, hcalls⟩
  · exact hsuffix.sublist
  · exact (hcalls.sublist.cons_cons person).trans (List.sublist_append_right _ _)

theorem placePictures_empty {pictures : ℕ → List Picture} (k : ℕ) {ts : List Turn}
    (h : ∀ n < ts.countP Turn.isPerson, pictures (k + n) = []) : placePictures pictures k ts = ts := by
  induction ts generalizing k with
  | nil => rfl
  | cons t rest ih =>
    cases t with
    | person text =>
      rw [List.countP_cons_of_pos rfl] at h
      have hfirst : pictures k = [] := h 0 (Nat.succ_pos _)
      rw [placePictures, if_pos hfirst, ih (k + 1) fun n hn => ?_]
      rw [Nat.add_assoc, Nat.add_comm 1]
      exact h (n + 1) (Nat.succ_lt_succ hn)
    | _ =>
      rw [List.countP_cons_of_neg Bool.false_ne_true] at h
      rw [placePictures, ih k h]
      nofun

theorem turnsOf_pictures {m : Message} {t : Turn} (ht : t ∈ turnsOf m) : picturesIn t = 0 := by
  rcases List.mem_append.mp ht with hsaid | hcall
  · by_cases hm : m.role = .user
    · rw [saidOf, hm] at hsaid
      rw [List.mem_singleton.mp hsaid]
      rfl
    · exact (saidOf_plain hm hsaid).2
  · exact (callsOf_plain hcall).2

/-- Where calls are left out, the turns that are sent of the chat have its room. -/
theorem trimmed_cost {before later : List Message} {m : Message} (hm : m.role = .user)
    (hlater : ∀ x ∈ later, x.role ≠ .user) (hsplit : a.messages = before ++ m :: later)
    (hover : a.room T < ((m :: later).map (cost T)).sum)
    (hlast : ∀ last, ((m :: later).flatMap turnsOf).getLast? = some last →
      turnCost T last ≤ a.room T)
    (hpictures : a.kept m = [] ∨
      Crowded T (a.room T) (.person m.content) (callsOf m ++ later.flatMap turnsOf)) :
    sentCost T (a.sent T) ≤ a.room T + sentCost T a.refused.toList := by
  have hdrop : a.messages.drop (a.read T) = m :: later := by
    rw [read_newest hm hlater hsplit hover, hsplit, List.drop_left]
  rw [Asked.sent, hdrop, sentCost_append]
  refine Nat.add_le_add_right ?_ _
  have hgives : Gives T (a.room T) ((m :: later).flatMap turnsOf)
      (turns T (m :: later) (a.room T)) := turns_gives T _ _
  generalize turns T (m :: later) (a.room T) = given at hgives
  have hall : (m :: later).flatMap turnsOf =
      .person m.content :: (callsOf m ++ later.flatMap turnsOf) := by
    rw [List.flatMap_cons, turnsOf_person hm, List.cons_append]
  have hplain : sentCost T given ≤ a.room T := by
    rw [sentCost_plain fun t ht => ?_]
    · exact hgives.within hlast
    · obtain ⟨x, -, hx⟩ := List.mem_flatMap.mp (hgives.sublist.mem ht)
      exact turnsOf_pictures hx
  split
  · refine le_of_eq_of_le ?_ hplain
    congr 1
    rcases hpictures with hnone | hcrowded
    · -- of the person's messages, only the newest is read
      have hpersons : a.persons = personsOf before ++ [m] := by
        have hlater' : later.filter (fun x => x.role = .user) = [] :=
          List.filter_eq_nil_iff.mpr fun x hx => by simpa using hlater x hx
        have hnewest : (m :: later).filter (fun x => x.role = .user) = [m] := by
          rw [List.filter_cons_of_pos (by simpa using hm), hlater']
        rw [Asked.persons, hsplit, List.filter_append, hnewest]
        rfl
      have hcount : given.countP Turn.isPerson ≤ 1 := by
        refine (hgives.sublist.countP_le (p := Turn.isPerson)).trans ?_
        rw [hall, List.countP_cons_of_pos rfl, List.countP_eq_zero.mpr]
        intro t ht
        rcases List.mem_append.mp ht with ht | ht
        · rw [(callsOf_plain ht).1]
          exact Bool.false_ne_true
        · obtain ⟨x, hx, ht⟩ := List.mem_flatMap.mp ht
          rw [turnsOf_plain (hlater x hx) ht]
          exact Bool.false_ne_true
      refine placePictures_empty _ fun n hn => ?_
      have hat : a.persons.length - given.countP Turn.isPerson + n = (personsOf before).length := by
        rw [hpersons, List.length_append, List.length_singleton]
        omega
      rw [hat, hpersons, List.getElem?_append_right le_rfl, Nat.sub_self]
      exact hnone
    · refine placePictures_none _ ?_
      rw [hall] at hgives
      refine hgives.crowded rfl (fun t ht => ?_) hcrowded
      rcases List.mem_append.mp ht with ht | ht
      · exact (callsOf_plain ht).1
      · obtain ⟨x, hx, ht⟩ := List.mem_flatMap.mp ht
        exact turnsOf_plain (hlater x hx) ht
  · exact hplain

end Sent

/-! ### The request fits -/

section Fits

variable {T : Texts} (a : Asked)

/-- What is kept for the tools' declarations. -/
@[grind =]
def declared (T : Texts) (a : Asked) : Nat :=
  if a.plain then 0 else Asked.declaredTokens T a.active.tools

theorem declaredTokens_nil : Asked.declaredTokens T [] = 0 := by
  have hempty : ("\n".intercalate ([] : List String)).toList = [] := by decide
  rw [Asked.declaredTokens, List.map_nil, tokensOf, hempty, List.foldl_nil]
  decide

theorem declared_offered : Asked.declaredTokens T a.offered ≤ declared T a := by
  rw [Asked.offered, declared]
  split
  · rw [declaredTokens_nil]
    exact Nat.zero_le _
  · next hoffered =>
    rw [if_neg fun hplain => hoffered (.inr hplain)]

/-- The chat's budget leaves the answer's room, the system part and what was reserved. -/
theorem chatBudget_le : a.chatBudget T ≤ a.context -
    (a.answerRoom + (tokensOf T (a.system T) + (declared T a + a.reserved) + templateTokens)) := by
  rw [Asked.chatBudget, Asked.budget, declared, Asked.reserved]
  refine (Nat.min_le_left _ _).trans (le_of_eq ?_)
  by_cases hplain : a.plain = true
  · rw [if_pos hplain, if_pos hplain, if_pos hplain]
  · rw [if_neg hplain, if_neg hplain, if_neg hplain]

/-- A request fits where what is sent of the chat and after it fits its room and what was
reserved. -/
theorem requested_le (hroom : 0 < a.room T)
    (hsent : tokensOf T a.after + sentCost T (a.sent T) ≤ a.room T + a.reserved) :
    a.requested T ≤ a.context := by
  have hdeclared := declared_offered (T := T) a
  have hbudget := chatBudget_le (T := T) a
  have hcounted : counted T (a.system T) (a.sent T) a.after = templateTokens +
      tokensOf T (a.system T) + tokensOf T a.after + sentCost T (a.sent T) := rfl
  rw [Asked.room] at hroom hsent
  rw [Asked.requested, hcounted]
  omega

/-- **The request fits the engine's context** by Core's own count. Where the chat from the person's
newest message on has room beside the words carried on, what nothing was reserved for has room in
what was reserved for what comes after the chat; where it has not and calls are left out, the newest
turn has room, and no picture is read with the person's words. -/
theorem request_fits {before later : List Message} {m : Message}
    (hsplit : a.messages = before ++ m :: later) (hm : m.role = .user)
    (hlater : ∀ x ∈ later, x.role ≠ .user) (hmeets : a.Meets T m later) :
    a.requested T ≤ a.context := by
  have hbeyond : a.beyond T = tokensOf T a.after + sentCost T a.refused.toList := rfl
  rw [Asked.Meets] at hmeets
  split at hmeets
  · next hfits =>
    have hread : ((a.messages.drop (a.read T)).map (cost T)).sum ≤ a.room T := by
      have hnewest : Newest (isUser a.messages) a.messages.length before.length := by
        rw [hsplit]
        exact newest_of_split hm hlater
      rcases reads_readFrom T a.messages (a.room T) with hreads | hlatest | ⟨hnobody, -⟩
      · rwa [readCost, costFrom_costAt] at hreads
      · rwa [Asked.read, hlatest.unique hnewest, hsplit, List.drop_left]
      · exact absurd (hnobody _ hnewest.1) (by rw [hnewest.2.1]; exact Bool.false_ne_true.symm)
    have hsent := sent_cost hread
    have hpos : 0 < cost T m := by
      have hturn := turnCost_pos T (.person m.content)
      rw [cost, turnsOf_person hm, List.map_cons, List.sum_cons]
      omega
    rw [List.map_cons, List.sum_cons] at hfits
    rw [Asked.unreserved, hbeyond] at hmeets
    exact requested_le a (by omega) (by omega)
  · next hover =>
    obtain ⟨hreserved, hlast, hpictures⟩ := hmeets
    have hsent := trimmed_cost hm hlater hsplit (by omega) hlast hpictures
    obtain ⟨last, hend⟩ : ∃ last, ((m :: later).flatMap turnsOf).getLast? = some last := by
      rw [List.flatMap_cons, turnsOf_person hm, List.cons_append, List.getLast?_cons]
      exact ⟨_, rfl⟩
    have hpos := turnCost_pos T last
    have hlast := hlast last hend
    exact requested_le a (by omega) (by omega)

end Fits

/-! ### Chats that fill their room -/

theorem tokensOf_append (T : Texts) (x y : List Char) :
    tokensOf T (String.ofList x ++ String.ofList y) =
      ((x ++ y).foldl (Counted.add T.isNumeric) {}).tokens := by
  rw [tokensOf, String.toList_append, String.toList_ofList, String.toList_ofList]

/-- A chat with no tool on offer. -/
def asking (contextLen : ℕ) (chat : List Message) (refused : Option Turn) : Asked where
  profile := ⟨800, 300, 8000⟩
  contextLen := some contextLen
  thinking := none
  thinkingBudget := 0
  active := ⟨[], 0, 0, []⟩
  blocks := []
  ledger := ""
  chat := chat
  continuing := false
  fileText _ := none
  refused := refused
  bytes _ := some [0, 0, 0, 0]

/-- The call the model wrote into its answer, and what it was told. -/
def refusedCall : Turn :=
  .call "refused_0" "notes.read" (.obj []) "error: no tool is on offer"

set_option maxRecDepth 2000 in
theorem systemPlain_tokens : tokensOf asciiTexts systemPlain = 54 :=
  (tokensOf_append asciiTexts _ _).trans (by decide +kernel)

theorem joined_plain : Asked.joined [systemPlain, ""] = systemPlain := by
  have hne : systemPlain ≠ "" := by
    intro hempty
    have htokens := systemPlain_tokens
    rw [hempty] at htokens
    exact absurd htokens (by decide)
  have hkept : [systemPlain, ""].filter (· ≠ "") = [systemPlain] := by simp [hne]
  rw [Asked.joined, hkept]
  rfl

section Asking

variable (contextLen : ℕ) (chat : List Message) (refused : Option Turn)

theorem asking_popped : (asking contextLen chat refused).popped = (chat, none) := by
  rw [Asked.popped]
  split
  · exact if_neg fun h => Bool.false_ne_true h.1
  · rfl

theorem asking_system :
    tokensOf asciiTexts ((asking contextLen chat refused).system asciiTexts) = 54 := by
  have hplain : (asking contextLen chat refused).system asciiTexts =
      Asked.joined [systemPlain, ""] := rfl
  rw [hplain, joined_plain, systemPlain_tokens]

theorem asking_carried : (asking contextLen chat refused).carried asciiTexts = 0 := by
  rw [Asked.carried, Asked.begun, asking_popped]
  rfl

/-- The chat's budget is what the answer, the system part and the template leave. -/
theorem asking_room :
    (asking contextLen chat refused).room asciiTexts = min (contextLen - 2114) 8000 := by
  rw [Asked.room, Asked.chatBudget, asking_system, asking_carried]
  change min (contextLen - (2048 + (54 + 0 + 12))) 8000 - 0 = min (contextLen - 2114) 8000
  omega

theorem asking_after : tokensOf asciiTexts (asking contextLen chat refused).after = 0 := by
  have hempty : (asking contextLen chat refused).after = Asked.joined ["", ""] := rfl
  rw [hempty]
  decide

theorem asking_requested : (asking contextLen chat refused).requested asciiTexts =
    2114 + sentCost asciiTexts ((asking contextLen chat refused).sent asciiTexts) := by
  have hoffered : (asking contextLen chat refused).offered = [] := by
    rw [Asked.offered]
    exact if_pos (.inr rfl)
  have hanswer : (asking contextLen chat refused).answerRoom = 2048 := rfl
  rw [Asked.requested, counted, asking_system, asking_after, hoffered, declaredTokens_nil,
    asking_carried, hanswer, sentCost, templateTokens]
  omega

end Asking

/-- An answer that made two calls. -/
def fetched : Message where
  role := .assistant
  content := ""
  toolCalls := [⟨"c1", "map.find", .obj [], .ok "a river and a lake" (.obj []) none⟩,
    ⟨"c2", "map.find", .obj [], .ok "a mountain" (.obj []) none⟩]

/-- The newer of two calls is read beside the question. -/
theorem request_fits_trimmed :
    (asking 2154 [question 1, answered, question 0, fetched] none).room asciiTexts <
        ([question 0, fetched].map (cost asciiTexts)).sum ∧
      (asking 2154 [question 1, answered, question 0, fetched] none).requested asciiTexts ≤
        (asking 2154 [question 1, answered, question 0, fetched] none).context := by
  have hover : (asking 2154 [question 1, answered, question 0, fetched] none).room asciiTexts <
      ([question 0, fetched].map (cost asciiTexts)).sum := by
    rw [asking_room]
    decide +kernel
  refine ⟨hover, @request_fits asciiTexts _ [question 1, answered] [fetched] (question 0) ?_ rfl
    (by simp [fetched]) ?_⟩
  · rw [Asked.messages, asking_popped]
    rfl
  · rw [Asked.Meets, if_neg (Nat.not_le_of_lt hover), Asked.beyond, asking_after, asking_room]
    refine ⟨?_, ?_, ?_⟩
    · decide
    · decide +kernel
    · exact .inl rfl

/-- A question with a picture, and one after a call that was refused, take their chat's whole
budget, and more of the context than there is. -/
theorem picture_overflows :
    (0 < (asking 3273 [question 1] none).room asciiTexts ∧
      cost asciiTexts (question 1) ≤ (asking 3273 [question 1] none).room asciiTexts ∧
      (asking 3273 [question 1] none).context <
        (asking 3273 [question 1] none).requested asciiTexts) ∧
    0 < (asking 2123 [question 0] (some refusedCall)).room asciiTexts ∧
      cost asciiTexts (question 0) ≤
        (asking 2123 [question 0] (some refusedCall)).room asciiTexts ∧
      (asking 2123 [question 0] (some refusedCall)).context <
        (asking 2123 [question 0] (some refusedCall)).requested asciiTexts := by
  rw [asking_requested, asking_requested, Asked.sent, Asked.sent, Asked.read, Asked.read,
    asking_room, asking_room]
  refine ⟨⟨?_, ?_, ?_⟩, ?_, ?_, ?_⟩ <;> decide +kernel

end LocalSpace.Prompts
