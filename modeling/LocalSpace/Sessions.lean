import LocalSpace.Accounts

/-!
# Sessions

A session is live while its record is not revoked, it has not expired and its account is not
disabled. What a call does to the unrevoked sessions is `Did.unrevoked`; over a run it says
that a session id answers for the user it was issued to, until its time is over or a call
ended it, and never again.
-/

namespace LocalSpace

namespace Directory

variable {V : Vault} {d d' : Directory} {c : Call} {a : Answer} {id : String} {user : UserId}

/-- The user of an unrevoked session, and when it expires. -/
@[grind =]
def unrevoked (V : Vault) (d : Directory) (id : String) : Option (UserId × Nat) :=
  ((d.getSession (keyOf V id)).filter fun s => !s.revoked).map fun s => (s.user, s.expiresMs)

/-- A call that ends a user's session. -/
def Op.ends (op : Op) (id : String) (user : UserId) : Bool :=
  match op with
  | .logout id' => id' = id
  | .revokeSessions user' | .setRoles user' _ | .resetPassword user' => user' = user
  | .setDisabled user' disabled => disabled ∧ user' = user
  | _ => false

/-! ### One call -/

theorem unrevoked_of_sessions (h : d'.sessions = d.sessions) :
    d'.unrevoked V id = d.unrevoked V id := by
  simp only [unrevoked, getSession, h]

@[simp] theorem unrevoked_putUser (u : UserRecord) :
    (d.putUser u).unrevoked V id = d.unrevoked V id := rfl

theorem unrevoked_startSession (hblake : Function.Injective V.blake3) (u : UserRecord)
    (ip userAgent : String) (nowMs : Nat) :
    (d.startSession V u ip userAgent nowMs).2.unrevoked V id =
      if V.token d.drawn = id then some (u.id, nowMs + V.sessionTtlMs) else d.unrevoked V id := by
  split
  · rename_i hid
    subst hid
    simp only [unrevoked, getSession, startSession, putSession, draw, AList.lookup_insert]
    rfl
  · rename_i hid
    have hkey : keyOf V id ≠ keyOf V (V.token d.drawn) := fun h => hid (hblake h).symm
    simp only [unrevoked, getSession, startSession, putSession, draw,
      AList.lookup_insert_ne hkey]

theorem unrevoked_revokeSessions (user : UserId) :
    (d.revokeSessions user).2.unrevoked V id =
      (d.unrevoked V id).filter fun us => us.1 ≠ user := by
  simp only [unrevoked, getSession, revokeSessions, Table.lookup_rewrite]
  cases d.sessions.lookup (keyOf V id) with
  | none => rfl
  | some s =>
    by_cases hu : s.user = user <;> cases hr : s.revoked <;>
      simp [Option.filter_some, hu, hr]

theorem unrevoked_putSession (hblake : Function.Injective V.blake3) (id' : String)
    (s : SessionRecord) :
    (d.putSession (keyOf V id') { s with revoked := true }).unrevoked V id =
      (d.unrevoked V id).filter fun _ => id' ≠ id := by
  by_cases hid : id' = id
  · subst hid
    simp [unrevoked, getSession, putSession]
  · have hkey : keyOf V id ≠ keyOf V id' := fun h => hid (hblake h).symm
    simp only [unrevoked, getSession, putSession, AList.lookup_insert_ne hkey]
    cases d.sessions.lookup (keyOf V id) with
    | none => rfl
    | some s' => cases hr : s'.revoked <;> simp [Option.filter_some, hid, hr]

/-- The account of an unrevoked session is there, and not disabled. -/
def Owned (V : Vault) (d : Directory) : Prop :=
  ∀ id user expiresMs, d.unrevoked V id = some (user, expiresMs) →
    ∃ u, d.getUser user = some u ∧ u.disabled = false

/-- The unrevoked session under an id after a call, by its answer. -/
@[grind =]
def Op.leaves (op : Op) (id : String) (before : Option (UserId × Nat)) :
    Answer → Option (UserId × Nat)
  | .signedIn signed =>
    if signed.session = id then some (signed.user.id, signed.expiresMs) else before
  | _ => before.filter fun us => !op.ends id us.1

/-- What a call makes of the unrevoked sessions. -/
theorem Did.unrevoked (hblake : Function.Injective V.blake3) (owned : Owned V d)
    (did : Did V c d a d') (id : String) :
    d'.unrevoked V id = c.op.leaves id (d.unrevoked V id) a := by
  have keep : ∀ op : Op, (∀ user, op.ends id user = false) →
      d.unrevoked V id = (d.unrevoked V id).filter fun us => !op.ends id us.1 := by
    intro op hop
    cases d.unrevoked V id <;> simp [Option.filter_some, hop]
  cases did with
  | nothing n locks compared silent revoked op roles disabled reset =>
    have hstay : d.unrevoked V id =
        (d.unrevoked V id).filter fun us => !c.op.ends id us.1 := by
      cases hlive : d.unrevoked V id with
      | none => rfl
      | some ue =>
        obtain ⟨user, expiresMs⟩ := ue
        obtain ⟨u, hu, _⟩ := owned id user expiresMs hlive
        have hends : c.op.ends id user = false := by
          cases hop : c.op with
          | logout id' =>
            simp only [Op.ends, decide_eq_false_iff_not]
            rintro rfl
            obtain ⟨s, hs, _⟩ := Option.map_eq_some_iff.mp hlive
            obtain ⟨hs, hr⟩ := Option.filter_eq_some_iff.mp hs
            rw [op _ hop s hs] at hr
            cases hr
          | revokeSessions user' => exact (revoked user' hop).elim
          | setRoles user' roles' =>
            simp only [Op.ends, decide_eq_false_iff_not]
            rintro rfl
            rw [roles _ _ hop] at hu
            cases hu
          | resetPassword user' =>
            simp only [Op.ends, decide_eq_false_iff_not]
            rintro rfl
            rw [reset _ hop] at hu
            cases hu
          | setDisabled user' b =>
            simp only [Op.ends, decide_eq_false_iff_not, not_and]
            rintro _ rfl
            rw [disabled _ _ hop] at hu
            cases hu
          | _ => rfl
        simp [Option.filter_some, hends]
    cases a with
    | signedIn signed => cases silent
    | _ => exact hstay
  | created op new fresh =>
    exact (unrevoked_of_sessions rfl).trans (keep _ fun _ => by rw [op]; rfl)
  | minted op empty => exact (unrevoked_of_sessions rfl).trans (keep _ fun _ => by rw [op]; rfl)
  | accepted hash op found first unused live empty fresh =>
    exact unrevoked_startSession hblake _ _ _ _
  | passworded hash locks op found unused live account enabled =>
    exact unrevoked_startSession hblake _ _ _ _
  | loggedIn locks compared op account enabled => exact unrevoked_startSession hblake _ _ _ _
  | roles op account =>
    refine (unrevoked_revokeSessions _).trans ?_
    simp [op, Op.leaves, Op.ends, eq_comm]
  | disabled op account =>
    refine (unrevoked_revokeSessions _).trans ?_
    simp [op, Op.leaves, Op.ends, eq_comm]
  | enabled op account =>
    exact (unrevoked_of_sessions rfl).trans (keep _ fun _ => by rw [op]; simp [Op.ends])
  | reset op account =>
    refine (unrevoked_of_sessions (d := ((d.putUser _).revokeSessions _).2) rfl).trans
      ((unrevoked_revokeSessions _).trans ?_)
    simp [op, Op.leaves, Op.ends, eq_comm]
  | loggedOut op found live =>
    refine (unrevoked_putSession hblake _ _).trans ?_
    simp [op, Op.leaves, Op.ends]
  | revoked op =>
    refine (unrevoked_revokeSessions _).trans ?_
    simp [op, Op.leaves, Op.ends, eq_comm]

/-- A session is issued under a token just drawn, for as long as sessions last, to an account
that is there and not disabled. -/
theorem Did.issued (did : Did V c d a d') {signed : SignedIn}
    (ha : a = .signedIn signed) :
    (∃ n, d.drawn ≤ n ∧ n < d'.drawn ∧ signed.session = V.token n) ∧
      signed.expiresMs = c.nowMs + V.sessionTtlMs ∧
      d'.getUser signed.user.id = some signed.user ∧ signed.user.disabled = false := by
  subst ha
  cases did with
  | nothing n locks compared silent => cases silent
  | accepted hash op found first unused live empty fresh =>
    refine ⟨⟨d.drawn + 2, by omega, by simp, rfl⟩, rfl, getUser_putUser _, ?_⟩
    rw [fresh]
    rfl
  | passworded hash locks op found unused live account enabled =>
    exact ⟨⟨d.drawn + 1, by omega, by simp, rfl⟩, rfl, getUser_putUser _, enabled⟩
  | loggedIn locks compared op account enabled =>
    exact ⟨⟨d.drawn, Nat.le_refl _, by simp, rfl⟩, rfl, getUser_putUser _, enabled⟩

theorem Did.owned (hblake : Function.Injective V.blake3) (huuid : Function.Injective V.uuid)
    (hreg : Registered V d) (owned : Owned V d) (did : Did V c d a d') : Owned V d' := by
  intro id user expiresMs hlive
  rw [did.unrevoked hblake owned id] at hlive
  -- a session that stays has its account, which this call does not disable
  have stays : ∀ expiresMs, d.unrevoked V id = some (user, expiresMs) →
      c.op.ends id user = false → ∃ u, d'.getUser user = some u ∧ u.disabled = false := by
    intro expiresMs hold hends
    obtain ⟨u, hu, hdis⟩ := owned id user expiresMs hold
    obtain ⟨u', hu', _, hsame | ⟨b, hop, hb⟩⟩ := did.account huuid hreg hu
    · exact ⟨u', hu', hsame.trans hdis⟩
    · cases b with
      | false => exact ⟨u', hu', hb⟩
      | true =>
        rw [hop] at hends
        simp [Op.ends] at hends
  cases a with
  | signedIn signed =>
    simp only [Op.leaves] at hlive
    split at hlive
    · cases hlive
      obtain ⟨_, _, hu, hdis⟩ := did.issued rfl
      exact ⟨_, hu, hdis⟩
    · refine stays expiresMs hlive ?_
      cases did with
      | nothing n locks compared silent => cases silent
      | accepted hash op => rw [op]; rfl
      | passworded hash locks op => rw [op]; rfl
      | loggedIn locks compared op => rw [op]; rfl
  | _ =>
    obtain ⟨hold, hends⟩ := Option.filter_eq_some_iff.mp hlive
    exact stays expiresMs hold (by simpa using hends)

/-! ### A whole run -/

theorem owned_run (hblake : Function.Injective V.blake3) (huuid : Function.Injective V.uuid)
    (calls : List Call) : Owned V (({} : Directory).run V calls) := by
  induction calls using List.reverseRecOn with
  | nil => intro id user expiresMs h; simp [Directory.unrevoked, getSession] at h
  | append_singleton calls c ih =>
    rw [run_concat]
    exact (perform_did _ c).owned hblake huuid (registered_run huuid calls) ih

theorem run_drawn_le (d : Directory) (calls : List Call) : d.drawn ≤ (d.run V calls).drawn := by
  induction calls using List.reverseRecOn with
  | nil => exact Nat.le_refl _
  | append_singleton calls c ih =>
    rw [run_concat]
    exact ih.trans (perform_did _ c).drawn_le

/-- A call that signs a user in with this session id. -/
def Issues (V : Vault) (d : Directory) (c : Call) (id : String) (user : UserId) : Prop :=
  ∃ signed, (d.perform V c).1 = .signedIn signed ∧ signed.session = id ∧ signed.user.id = user

/-- A session is unrevoked exactly when it was issued and nothing since has ended it. -/
theorem unrevoked_iff (hblake : Function.Injective V.blake3) (huuid : Function.Injective V.uuid)
    (htoken : Function.Injective V.token) (calls : List Call) (id : String) (user : UserId)
    (expiresMs : Nat) :
    (({} : Directory).run V calls).unrevoked V id = some (user, expiresMs) ↔
      ∃ pre c post, calls = pre ++ c :: post ∧
        Issues V (({} : Directory).run V pre) c id user ∧
        expiresMs = c.nowMs + V.sessionTtlMs ∧ ∀ c' ∈ post, c'.op.ends id user = false := by
  induction calls using List.reverseRecOn with
  | nil =>
    constructor
    · intro h
      simp [Directory.unrevoked, getSession] at h
    · rintro ⟨pre, c, post, h, _⟩
      simp at h
  | append_singleton calls c ih =>
    have did := perform_did (V := V) (({} : Directory).run V calls) c
    have hafter := did.unrevoked hblake (owned_run hblake huuid calls) id
    rw [run_concat]
    constructor
    · intro h
      rw [show (({} : Directory).run V calls).after V c =
        ((({} : Directory).run V calls).perform V c).2 from rfl, hafter] at h
      -- issued by this call, or before it and not ended by it
      have before : (({} : Directory).run V calls).unrevoked V id = some (user, expiresMs) →
          c.op.ends id user = false → ∃ pre c₁ post, calls ++ [c] = pre ++ c₁ :: post ∧
            Issues V (({} : Directory).run V pre) c₁ id user ∧
            expiresMs = c₁.nowMs + V.sessionTtlMs ∧
              ∀ c' ∈ post, c'.op.ends id user = false := by
        intro hold hends
        obtain ⟨pre, c₁, post, rfl, hissues, hexp, hpost⟩ := ih.mp hold
        refine ⟨pre, c₁, post ++ [c], by simp, hissues, hexp, fun c' hc' => ?_⟩
        rw [List.mem_append, List.mem_singleton] at hc'
        obtain hc' | rfl := hc'
        · exact hpost c' hc'
        · exact hends
      cases ha : ((({} : Directory).run V calls).perform V c).1 with
      | signedIn signed =>
        rw [ha] at h
        simp only [Op.leaves] at h
        split at h
        · rename_i hid
          cases h
          obtain ⟨_, hexp, _⟩ := did.issued ha
          exact ⟨calls, c, [], rfl, ⟨signed, ha, hid, rfl⟩, hexp, by simp⟩
        · refine before h ?_
          rw [ha] at did
          generalize ((({} : Directory).run V calls).perform V c).2 = d' at did
          cases did with
          | nothing n locks compared silent => cases silent
          | accepted hash op => rw [op]; rfl
          | passworded hash locks op => rw [op]; rfl
          | loggedIn locks compared op => rw [op]; rfl
      | _ =>
        rw [ha] at h
        obtain ⟨hold, hends⟩ := Option.filter_eq_some_iff.mp h
        exact before hold (by simpa using hends)
    · rintro ⟨pre, c₁, post, hcalls, hissues, hexp, hpost⟩
      rw [show (({} : Directory).run V calls).after V c =
        ((({} : Directory).run V calls).perform V c).2 from rfl, hafter]
      cases List.eq_nil_or_concat post with
      | inl hnil =>
        subst hnil
        obtain ⟨rfl, hc⟩ := List.append_inj' hcalls rfl
        cases hc
        obtain ⟨signed, ha, hid, huser⟩ := hissues
        obtain ⟨_, hexp', _⟩ := did.issued ha
        rw [ha]
        simp [Op.leaves, hid, huser, hexp, hexp']
      | inr hconcat =>
        obtain ⟨post', last, hpost'⟩ := hconcat
        rw [List.concat_eq_append] at hpost'
        subst hpost'
        rw [← List.cons_append, ← List.append_assoc] at hcalls
        obtain ⟨hbefore, hlast⟩ := List.append_inj' hcalls rfl
        cases hlast
        have hold := ih.mpr ⟨pre, c₁, post', hbefore, hissues, hexp,
          fun c' hc' => hpost c' (List.mem_append_left _ hc')⟩
        have hends : c.op.ends id user = false := hpost c (by simp)
        cases ha : ((({} : Directory).run V calls).perform V c).1 with
        | signedIn signed =>
          simp only [Op.leaves]
          rw [if_neg, hold]
          -- the id was drawn before, and this call draws another
          intro hid
          obtain ⟨signed₁, ha₁, hid₁, _⟩ := hissues
          obtain ⟨⟨n, hn, _, hsession⟩, _⟩ := did.issued ha
          obtain ⟨⟨m, _, hm, hsession₁⟩, _⟩ :=
            (perform_did (V := V) (({} : Directory).run V pre) c₁).issued ha₁
          have hmn : m = n := htoken (by rw [← hsession, ← hsession₁, hid, hid₁])
          have hle : ((({} : Directory).run V pre).perform V c₁).2.drawn ≤
              (({} : Directory).run V calls).drawn := by
            rw [hbefore, run_append]
            exact run_drawn_le _ post'
          omega
        | _ => exact Option.filter_eq_some_iff.mpr ⟨hold, by simp [hends]⟩

/-- A live session is an unrevoked one that has not expired. -/
theorem session_iff (hreg : Registered V d) (owned : Owned V d) (nowMs : Nat) :
    (d.session V id nowMs).map (fun us => us.1.id) = some user ↔
      ∃ expiresMs, d.unrevoked V id = some (user, expiresMs) ∧ nowMs < expiresMs := by
  cases hs : d.getSession (keyOf V id) with
  | none => simp [session, Directory.unrevoked, hs]
  | some s =>
    cases hr : s.revoked with
    | true => simp [session, Directory.unrevoked, hs, hr, Option.filter_some]
    | false =>
      have hlive : d.unrevoked V id = some (s.user, s.expiresMs) := by
        simp [Directory.unrevoked, hs, hr, Option.filter_some]
      obtain ⟨u, hu, hdis⟩ := owned id s.user s.expiresMs hlive
      have hid := hreg.keyed _ _ hu
      simp only [session, hs, hr, hlive, hu, hdis]
      by_cases hexp : s.expiresMs ≤ nowMs
      · simp [hexp]
      · simp [hexp, hid]
        omega

/-- **A session once ended never comes back**: over every run, with any clock, a session id
answers for a user exactly when a sign-in of that user issued it less than the sessions'
lifetime ago, and no call since has logged it out, or revoked, reset, disabled or given new
roles to the user. -/
theorem session_lives_iff (huuid : Function.Injective V.uuid)
    (hblake : Function.Injective V.blake3) (htoken : Function.Injective V.token)
    (calls : List Call) (id : String) (user : UserId) (nowMs : Nat) :
    ((({} : Directory).run V calls).session V id nowMs).map (fun us => us.1.id) = some user ↔
      ∃ pre c post, calls = pre ++ c :: post ∧
        Issues V (({} : Directory).run V pre) c id user ∧
        nowMs < c.nowMs + V.sessionTtlMs ∧ ∀ c' ∈ post, c'.op.ends id user = false := by
  rw [session_iff (registered_run huuid calls) (owned_run hblake huuid calls)]
  constructor
  · rintro ⟨expiresMs, hlive, hnow⟩
    obtain ⟨pre, c, post, hcalls, hissues, rfl, hpost⟩ :=
      (unrevoked_iff hblake huuid htoken calls id user expiresMs).mp hlive
    exact ⟨pre, c, post, hcalls, hissues, hnow, hpost⟩
  · rintro ⟨pre, c, post, hcalls, hissues, hnow, hpost⟩
    exact ⟨_, (unrevoked_iff hblake huuid htoken calls id user _).mpr
      ⟨pre, c, post, hcalls, hissues, rfl, hpost⟩, hnow⟩

/-- The first administrator accepts the link, signs in once more, and signs out of that. -/
def visits : List Call :=
  [⟨.bootstrapInvite, 5⟩, ⟨.acceptFirstAdmin "" "ana@x" "Ana" "a long password" "" "", 9⟩,
    ⟨.login "ana@x" "a long password" "" "", 10⟩, ⟨.logout "tttt", 11⟩]

theorem issues_visits :
    Issues .plain (({} : Directory).run .plain [⟨.bootstrapInvite, 5⟩])
      ⟨.acceptFirstAdmin "" "ana@x" "Ana" "a long password" "" "", 9⟩ "ttt" "u_uu" := by
  refine ⟨⟨{ freshUser .plain 2 "ana@x" "Ana" [.admin] 9 with
    passwordHash := some "a long password", passwordSetMs := some 9, lastLoginMs := some 9 },
    "ttt", 9 + Vault.plain.sessionTtlMs⟩, ?_, rfl, rfl⟩
  simp only [perform, acceptFirstAdmin, normaliseEmail_ana]
  rfl

/-- Before the signing out both sessions live, and after it the other one. -/
theorem session_lives_iff_visits :
    ((({} : Directory).run .plain visits).session .plain "ttt" 12).map (fun us => us.1.id) =
        some "u_uu" ∧
      ((({} : Directory).run .plain (visits.take 3)).session .plain "tttt" 12).map
        (fun us => us.1.id) = some "u_uu" ∧
      ((({} : Directory).run .plain visits).session .plain "tttt" 12).map (fun us => us.1.id) ≠
        some "u_uu" := by
  have hlives := session_lives_iff Vault.plain_uuid_injective Vault.plain_blake3_injective
    Vault.plain_token_injective
  refine ⟨(hlives ..).mpr ⟨_, _, _, rfl, issues_visits, by decide, by decide⟩, (hlives ..).mpr
    ⟨visits.take 2, _, [], rfl, ?_, by decide, by decide⟩, fun h => ?_⟩
  · refine ⟨⟨{ freshUser .plain 2 "ana@x" "Ana" [.admin] 9 with
      passwordHash := some "a long password", passwordSetMs := some 9, lastLoginMs := some 10 },
      "tttt", 10 + Vault.plain.sessionTtlMs⟩, ?_, rfl, rfl⟩
    simp only [visits, List.take, run, List.foldl, after, perform, acceptFirstAdmin, login,
      normaliseEmail_ana]
    rfl
  · obtain ⟨pre, c, post, hcalls, hissues, -, hends⟩ := (hlives ..).mp h
    obtain rfl | ⟨post, last, rfl⟩ := post.eq_nil_or_concat
    · obtain rfl : c = ⟨.logout "tttt", 11⟩ := by
        simpa [visits] using (congrArg List.getLast? hcalls).symm
      obtain ⟨signed, hsigned, -⟩ := hissues
      cases hsigned
    · obtain rfl : last = ⟨.logout "tttt", 11⟩ := by
        simpa [visits, List.getLast?_cons] using (congrArg List.getLast? hcalls).symm
      simpa [Op.ends] using hends ⟨.logout "tttt", 11⟩ (by simp)

end Directory

end LocalSpace
