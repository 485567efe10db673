import LocalSpace.Accounts

/-!
# The lock of an account and the lock of an address

The lock of an account counts wrong passwords and the locks earned in a row; `accountRecord`
after a call is told by what the call was to the account: it cleared the lock, it was a wrong
password, or it was neither. Over a run the two counts are those of the run itself, since the
last success, unlock or lock.

The lock of an address counts failures in a window that begins at a first failure and is thrown
away as a whole.
-/

namespace LocalSpace

namespace Directory

variable {V : Vault} {d d' : Directory} {c : Call}

theorem accountKey_ne_ipKey (id : UserId) (ip : String) : accountKey id ≠ ipKey ip := by
  intro h
  have hlist := congrArg String.toList h
  simp [accountKey, ipKey] at hlist

theorem accountKey_injective : Function.Injective accountKey :=
  fun _ _ h => (String.append_right_inj _).mp h

theorem ipKey_injective : Function.Injective ipKey :=
  fun _ _ h => (String.append_right_inj _).mp h

/-! ### The record of an account's lock -/

/-- The lock of an account, as a first failure finds it where there is none. -/
@[grind =]
def accountRecord (d : Directory) (id : UserId) : LockRecord :=
  (d.getLock (accountKey id)).getD {}

theorem accountRecord_of_locks (h : d'.locks = d.locks) (id : UserId) :
    d'.accountRecord id = d.accountRecord id := by
  simp only [accountRecord, getLock, h]

theorem accountLockedUntil_eq (d : Directory) (id : UserId) (nowMs : Nat) :
    d.accountLockedUntil id nowMs = if nowMs < (d.accountRecord id).lockedUntilMs
      then some (d.accountRecord id).lockedUntilMs else none := by
  cases hlock : d.getLock (accountKey id) with
  | none => simp [accountLockedUntil, lockedUntil, accountRecord, hlock]
  | some lock =>
    by_cases h : nowMs < lock.lockedUntilMs <;>
      simp [accountLockedUntil, lockedUntil, accountRecord, hlock, Option.filter_some, h]

@[simp] theorem accountRecord_countAddressFailure (ip : String) (nowMs : Nat) (id : UserId) :
    (d.countAddressFailure ip nowMs).accountRecord id = d.accountRecord id := by
  simp only [countAddressFailure]
  split
  · rfl
  · simp only [accountRecord, getLock, putLock]
    rw [AList.lookup_insert_ne (accountKey_ne_ipKey id ip)]

theorem accountRecord_countAccountFailure (user : UserId) (nowMs : Nat) (id : UserId) :
    (d.countAccountFailure user nowMs).accountRecord id =
      if user = id then (d.accountRecord id).accountFailure nowMs else d.accountRecord id := by
  simp only [countAccountFailure, accountRecord, getLock, putLock]
  split
  · rename_i hid
    subst hid
    rw [AList.lookup_insert]
    rfl
  · rename_i hid
    have hkey : accountKey id ≠ accountKey user := fun h => hid (accountKey_injective h).symm
    rw [AList.lookup_insert_ne hkey]

theorem accountRecord_unlock (user id : UserId) :
    (d.unlock user).accountRecord id = if user = id then {} else d.accountRecord id := by
  simp only [unlock, clearLock, accountRecord, getLock]
  split
  · rename_i hid
    subst hid
    rw [AList.lookup_erase]
    rfl
  · rename_i hid
    have hkey : accountKey id ≠ accountKey user := fun h => hid (accountKey_injective h).symm
    rw [AList.lookup_erase_ne hkey]

/-! ### What a call is to an account -/

/-- The account that a login's password is tried on, and whether it is the right one: an account of
that email that is enabled, has a password and is not locked, from an address that is not. -/
@[grind =]
def tries (V : Vault) (d : Directory) (c : Call) : Option (UserId × Bool) :=
  match c.op with
  | .login email password ip _ =>
    if (d.addressLockedUntil ip c.nowMs).isSome then none
    else (d.userByEmail (normaliseEmail email)).bind fun user =>
      if user.disabled ∨ (d.accountLockedUntil user.id c.nowMs).isSome then none
      else user.passwordHash.map fun hash => (user.id, V.verifyPassword password hash)
  | _ => none

/-- A call that clears an account's lock: an unlock, the right password, or a password set by a
link. -/
@[grind =]
def clears (V : Vault) (d : Directory) (c : Call) (id : UserId) : Bool :=
  match c.op, (d.perform V c).1 with
  | .unlock user, _ => user = id
  | .login .., _ => tries V d c = some (id, true)
  | .setPassword .., .signedIn signed => signed.user.id = id
  | _, _ => false

/-- A wrong password for an account. -/
@[grind =]
def mistakes (V : Vault) (d : Directory) (c : Call) (id : UserId) : Bool :=
  tries V d c = some (id, false)

/-- A failed login attempt from an address that was not locked. -/
@[grind =]
def failsFrom (V : Vault) (d : Directory) (c : Call) (ip : String) : Bool :=
  match c.op, (d.perform V c).1 with
  | .login .., .refused (.addressLocked _) => false
  | .login _ _ ip' _, .refused _ => ip' = ip
  | _, _ => false

/-- A call that finds an account not locked and leaves it locked. -/
def locksOut (V : Vault) (d : Directory) (c : Call) (id : UserId) : Bool :=
  (d.accountLockedUntil id c.nowMs).isNone ∧ ((d.after V c).accountLockedUntil id c.nowMs).isSome

/-- The directory and the call at each step of a list of calls. -/
@[grind =]
def history (V : Vault) (d : Directory) : List Call → List (Directory × Call)
  | [] => []
  | c :: rest => (d, c) :: history V (d.after V c) rest

theorem history_concat (d : Directory) (calls : List Call) (c : Call) :
    history V d (calls ++ [c]) = history V d calls ++ [(d.run V calls, c)] := by
  induction calls generalizing d with
  | nil => rfl
  | cons c' rest ih =>
    rw [List.cons_append, history, ih, history]
    rfl

/-- How many elements meet `p` after the last that meets `stop`. -/
def countSince {α : Type} (stop p : α → Bool) (l : List α) : Nat :=
  (l.reverse.takeWhile fun a => !stop a).countP p

theorem countSince_concat {α : Type} (stop p : α → Bool) (l : List α) (a : α) :
    countSince stop p (l ++ [a]) =
      if stop a then 0 else countSince stop p l + if p a then 1 else 0 := by
  simp only [countSince, List.reverse_append, List.reverse_singleton, List.singleton_append,
    List.takeWhile_cons]
  cases stop a with
  | true => rfl
  | false => simp [List.countP_cons]

/-- The wrong passwords of an account since its last success, unlock or lock. -/
def mistakesSince (V : Vault) (calls : List Call) (id : UserId) : Nat :=
  countSince (fun s => clears V s.1 s.2 id || locksOut V s.1 s.2 id)
    (fun s => mistakes V s.1 s.2 id) (history V {} calls)

/-- The locks of an account since its last success or unlock. -/
def locksSince (V : Vault) (calls : List Call) (id : UserId) : Nat :=
  countSince (fun s => clears V s.1 s.2 id) (fun s => locksOut V s.1 s.2 id) (history V {} calls)

/-! ### One call -/

theorem setPassword_locks {token password ip userAgent : String} {nowMs : Nat}
    {signed : SignedIn} (h : d.setPassword V token password ip userAgent nowMs = .ok (signed, d')) :
    d'.locks = d.locks.erase (accountKey signed.user.id) := by
  simp only [setPassword] at h
  split at h
  · cases h
  · simp only [bind, Except.bind] at h
    split at h
    · cases h
    · split at h
      · cases h
      · split at h <;> cases h
        rfl

theorem acceptFirstAdmin_locks {token email name password ip userAgent : String} {nowMs : Nat}
    {signed : SignedIn}
    (h : d.acceptFirstAdmin V token email name password ip userAgent nowMs = .ok (signed, d')) :
    d'.locks = d.locks := by
  simp only [acceptFirstAdmin] at h
  split at h
  · cases h
  · split at h
    · cases h
    · split at h
      · cases h
      · split at h
        · cases h
        · simp only [bind, Except.bind] at h
          split at h
          · cases h
          · split at h <;> cases h
            rfl

/-- The calls that are no login, no unlock and no link that sets a password. -/
def Op.noLock : Op → Bool
  | .login .. | .unlock _ | .setPassword .. => false
  | _ => true

theorem after_locks (h : c.op.noLock = true) : (d.after V c).locks = d.locks := by
  simp only [after, perform]
  cases hop : c.op with
  | createUser email name roles =>
    simp only [createUser]
    split
    · rfl
    · split <;> rfl
  | bootstrapInvite =>
    simp only [bootstrapInvite]
    split <;> rfl
  | acceptFirstAdmin token email name password ip userAgent =>
    cases ha : d.acceptFirstAdmin V token email name password ip userAgent c.nowMs with
    | error e => simp only [ha, answered]
    | ok sd =>
      obtain ⟨signed, d₁⟩ := sd
      simp only [ha, answered]
      exact acceptFirstAdmin_locks ha
  | setRoles id roles =>
    simp only [setRoles]
    split <;> rfl
  | setDisabled id disabled =>
    simp only [setDisabled]
    split
    · rfl
    · cases disabled <;> rfl
  | resetPassword id =>
    simp only [resetPassword]
    split <;> rfl
  | logout id =>
    simp only [logout]
    split
    · rfl
    · split <;> rfl
  | revokeSessions user => rfl
  | restart => rfl
  | login email password ip userAgent => rw [hop] at h; cases h
  | unlock id => rw [hop] at h; cases h
  | setPassword token password ip userAgent => rw [hop] at h; cases h

/-- **What one call does** to the locks: nothing; one account's is cleared; one address has a
failure counted; or it has, and one account a wrong password too. -/
inductive LockStep (V : Vault) (d : Directory) (c : Call) : Prop where
  | kept (locks : (d.after V c).locks = d.locks) (clears : ∀ id, clears V d c id = false)
      (mistakes : ∀ id, mistakes V d c id = false) (fails : ∀ ip, failsFrom V d c ip = false)
  | cleared (user : UserId) (locks : (d.after V c).locks = (d.unlock user).locks)
      (clears : ∀ id, clears V d c id = decide (user = id))
      (mistakes : ∀ id, mistakes V d c id = false) (fails : ∀ ip, failsFrom V d c ip = false)
  | failed (ip : String) (unlocked : d.addressLockedUntil ip c.nowMs = none)
      (locks : (d.after V c).locks = (d.countAddressFailure ip c.nowMs).locks)
      (clears : ∀ id, clears V d c id = false) (mistakes : ∀ id, mistakes V d c id = false)
      (fails : ∀ ip', failsFrom V d c ip' = decide (ip = ip'))
  | mistaken (ip : String) (user : UserId) (unlocked : d.addressLockedUntil ip c.nowMs = none)
      (unlocked' : d.accountLockedUntil user c.nowMs = none)
      (locks : (d.after V c).locks =
        ((d.countAddressFailure ip c.nowMs).countAccountFailure user c.nowMs).locks)
      (clears : ∀ id, clears V d c id = false)
      (mistakes : ∀ id, mistakes V d c id = decide (user = id))
      (fails : ∀ ip', failsFrom V d c ip' = decide (ip = ip'))

theorem countAddressFailure_locks (h : d'.locks = d.locks) (ip : String) (nowMs : Nat) :
    (d'.countAddressFailure ip nowMs).locks = (d.countAddressFailure ip nowMs).locks := by
  simp only [countAddressFailure, getLock, h]
  split
  · exact h
  · simp only [putLock, h]

theorem countAccountFailure_locks (h : d'.locks = d.locks) (user : UserId) (nowMs : Nat) :
    (d'.countAccountFailure user nowMs).locks = (d.countAccountFailure user nowMs).locks := by
  simp only [countAccountFailure, getLock, putLock, h]

theorem unlock_locks (h : d'.locks = d.locks) (user : UserId) :
    (d'.unlock user).locks = (d.unlock user).locks := by
  simp only [unlock, clearLock, h]

/-- An attempt refused, for another reason than its address's lock, is a failure of its
address. -/
theorem failsFrom_refused {email password ip userAgent : String} {failure : LoginFailure}
    (hop : c.op = .login email password ip userAgent) (h : d.perform V c = (.refused failure, d'))
    (hne : ∀ untilMs, failure ≠ .addressLocked untilMs) (ip' : String) :
    failsFrom V d c ip' = decide (ip = ip') := by
  cases failure with
  | addressLocked untilMs => exact absurd rfl (hne untilMs)
  | _ => simp [failsFrom, hop, h]

/-- What a password that is tried comes to. -/
theorem tries_eq {email password ip userAgent : String} {user : UserRecord}
    (hop : c.op = .login email password ip userAgent)
    (hip : d.addressLockedUntil ip c.nowMs = none)
    (hu : d.userByEmail (normaliseEmail email) = some user)
    (hlock : d.accountLockedUntil user.id c.nowMs = none) :
    tries V d c = match (d.checkPassword V user password).1 with
      | .ok () => some (user.id, true)
      | .error .wrongPassword => some (user.id, false)
      | .error _ => none := by
  simp only [tries, hop, hip, hu, checkPassword, verify]
  cases hdisabled : user.disabled with
  | true => simp [hdisabled]
  | false =>
    cases hhash : user.passwordHash with
    | none => simp [hhash]
    | some hash =>
      cases hfits : V.verifyPassword password hash <;> simp [hdisabled, hlock, hhash, hfits]

theorem perform_refused {email password ip userAgent : String} {failure : LoginFailure}
    (hop : c.op = .login email password ip userAgent)
    (h : d.login V email password ip userAgent c.nowMs = (.error failure, d')) :
    d.perform V c = (.refused failure, d') := by
  simp only [perform, hop, h]

theorem login_lockStep {email password ip userAgent : String}
    (hop : c.op = .login email password ip userAgent) : LockStep V d c := by
  have hclears : ∀ id, clears V d c id = decide (tries V d c = some (id, true)) := by
    intro id
    simp [clears, hop]
  cases hip : d.addressLockedUntil ip c.nowMs with
  | some untilMs =>
    have hlogin : d.login V email password ip userAgent c.nowMs =
        (.error (.addressLocked untilMs), d) := by simp only [login, hip]
    have hperform := perform_refused hop hlogin
    have htries : tries V d c = none := by simp [tries, hop, hip]
    refine .kept (by rw [after, hperform]) ?_ ?_ ?_
    · simp [hclears, htries]
    · simp [mistakes, htries]
    · simp [failsFrom, hop, hperform]
  | none =>
    cases hu : d.userByEmail (normaliseEmail email) with
    | none =>
      have hlogin : d.login V email password ip userAgent c.nowMs = (.error .noSuchUser,
          (d.verify V password V.decoy).2.countAddressFailure ip c.nowMs) := by
        simp only [login, hip, hu]
      have hperform := perform_refused hop hlogin
      have htries : tries V d c = none := by simp [tries, hop, hu]
      refine .failed ip hip ?_ ?_ ?_ (failsFrom_refused hop hperform (by simp))
      · have hverify : (d.verify V password V.decoy).2.locks = d.locks := rfl
        have hcounted := countAddressFailure_locks hverify ip c.nowMs
        rw [after, hperform, hcounted]
      · simp [hclears, htries]
      · simp [mistakes, htries]
    | some user =>
      cases hlock : d.accountLockedUntil user.id c.nowMs with
      | some untilMs =>
        have hlogin : d.login V email password ip userAgent c.nowMs =
            (.error (.accountLocked untilMs), d.countAddressFailure ip c.nowMs) := by
          simp only [login, hip, hu, hlock]
        have hperform := perform_refused hop hlogin
        have htries : tries V d c = none := by simp [tries, hop, hu, hlock]
        refine .failed ip hip (by rw [after, hperform]) ?_ ?_
          (failsFrom_refused hop hperform (by simp))
        · simp [hclears, htries]
        · simp [mistakes, htries]
      | none =>
        have htries := tries_eq hop hip hu hlock (V := V)
        cases hcheck : d.checkPassword V user password with
        | mk outcome d₁ =>
          obtain ⟨⟨compared, rfl⟩, hne⟩ := checkPassword_compared hcheck
          rw [hcheck] at htries
          cases outcome with
          | ok _ =>
            have hsigned : ∃ signed d₂, d.login V email password ip userAgent c.nowMs =
                (.ok signed, d₂) ∧ d₂.locks = (d.unlock user.id).locks := by
              refine ⟨_, _, by simp only [login, hip, hu, hlock, hcheck]; rfl, ?_⟩
              exact unlock_locks rfl user.id
            obtain ⟨signed, d₂, hlogin, hlocks⟩ := hsigned
            have hperform : d.perform V c = (.signedIn signed, d₂) := by
              simp only [perform, hop, hlogin]
            refine .cleared user.id (by rw [after, hperform, hlocks]) ?_ ?_ ?_
            · simp [hclears, htries]
            · simp [mistakes, htries]
            · simp [failsFrom, hop, hperform]
          | error failure =>
            have hlogin : d.login V email password ip userAgent c.nowMs =
                (.error failure, if failure = .wrongPassword then
                  ({ d with compared := compared }.countAddressFailure ip c.nowMs
                    |>.countAccountFailure user.id c.nowMs)
                else { d with compared := compared }.countAddressFailure ip c.nowMs) := by
              simp only [login, hip, hu, hlock, hcheck]
            have hperform := perform_refused hop hlogin
            have hfails := failsFrom_refused hop hperform (hne failure rfl)
            have hcompared : { d with compared := compared }.locks = d.locks := rfl
            have hcounted := countAddressFailure_locks hcompared ip c.nowMs
            by_cases hwrong : failure = .wrongPassword
            · subst hwrong
              rw [if_pos rfl] at hperform
              refine .mistaken ip user.id hip hlock ?_ ?_ ?_ hfails
              · rw [after, hperform]
                exact countAccountFailure_locks hcounted _ _
              · simp [hclears, htries]
              · simp [mistakes, htries]
            · rw [if_neg hwrong] at hperform
              have hnone : tries V d c = none := by cases failure <;> simp_all
              refine .failed ip hip (by rw [after, hperform, hcounted]) ?_ ?_ hfails
              · simp [hclears, hnone]
              · simp [mistakes, hnone]

theorem setPassword_lockStep {token password ip userAgent : String}
    (hop : c.op = .setPassword token password ip userAgent) : LockStep V d c := by
  have hmistakes : ∀ id, mistakes V d c id = false := by
    intro id
    simp [mistakes, tries, hop]
  have hfails : ∀ ip, failsFrom V d c ip = false := by
    intro ip
    simp [failsFrom, hop]
  cases hset : d.setPassword V token password ip userAgent c.nowMs with
  | error e =>
    have hafter : d.perform V c = (.failed e, d) := by simp only [perform, hop, hset, answered]
    refine .kept (by rw [after, hafter]) ?_ hmistakes hfails
    intro id
    simp [clears, hop, hafter]
  | ok sd =>
    obtain ⟨signed, d₁⟩ := sd
    have hafter : d.perform V c = (.signedIn signed, d₁) := by
      simp only [perform, hop, hset, answered]
    refine .cleared signed.user.id ?_ ?_ hmistakes hfails
    · rw [after, hafter]
      exact setPassword_locks hset
    · intro id
      simp [clears, hop, hafter]

theorem lockStep (d : Directory) (c : Call) : LockStep V d c := by
  cases hop : c.op with
  | unlock user =>
    have hafter : d.after V c = d.unlock user := by simp only [after, perform, hop]
    refine .cleared user (by rw [hafter]) ?_ ?_ ?_
    · intro id
      simp [clears, hop]
    · intro id
      simp [mistakes, tries, hop]
    · intro ip
      simp [failsFrom, hop]
  | setPassword token password ip userAgent => exact setPassword_lockStep hop
  | login email password ip userAgent => exact login_lockStep hop
  | _ =>
    refine .kept (after_locks (by rw [hop]; rfl)) ?_ ?_ ?_
    · intro id
      simp [clears, hop]
    · intro id
      simp [mistakes, tries, hop]
    · intro ip
      simp [failsFrom, hop]

/-- **One call and the lock of an account**: cleared, one more wrong password, or as it was. -/
theorem accountRecord_after (d : Directory) (c : Call) (id : UserId) :
    (d.after V c).accountRecord id =
      if clears V d c id then {}
      else if mistakes V d c id then (d.accountRecord id).accountFailure c.nowMs
      else d.accountRecord id := by
  cases lockStep (V := V) d c with
  | kept locks hclears hmistakes =>
    rw [hclears, hmistakes]
    exact accountRecord_of_locks locks id
  | cleared user locks hclears hmistakes =>
    rw [hclears, hmistakes, accountRecord_of_locks locks, accountRecord_unlock]
    simp only [decide_eq_true_eq, Bool.false_eq_true, if_false]
  | failed ip _ locks hclears hmistakes =>
    rw [hclears, hmistakes, accountRecord_of_locks locks]
    exact accountRecord_countAddressFailure ip c.nowMs id
  | mistaken ip user _ _ locks hclears hmistakes =>
    rw [hclears, hmistakes, accountRecord_of_locks locks, accountRecord_countAccountFailure,
      accountRecord_countAddressFailure]
    simp only [decide_eq_true_eq, Bool.false_eq_true, if_false]

/-! ### The count of wrong passwords -/

theorem accountFailure_counts (lock : LockRecord) (nowMs : Nat)
    (h : lock.failures + 1 < accountFailures) :
    lock.accountFailure nowMs = { lock with failures := lock.failures + 1 } := by
  simp only [LockRecord.accountFailure]
  rw [if_neg (by omega)]

theorem accountFailure_locks (lock : LockRecord) (nowMs : Nat)
    (h : accountFailures ≤ lock.failures + 1) :
    lock.accountFailure nowMs =
      { lock with
        lockedUntilMs := nowMs + accountLockMs * 2 ^ min lock.rounds 10
        failures := 0
        rounds := lock.rounds + 1 } := by
  simp only [LockRecord.accountFailure]
  rw [if_pos h]

/-- A password is found wrong only on an account that is not locked. -/
theorem mistakes_unlocked {id : UserId} (h : mistakes V d c id = true) :
    d.accountLockedUntil id c.nowMs = none ∧ clears V d c id = false := by
  cases lockStep (V := V) d c with
  | kept _ _ hmistakes =>
    rw [hmistakes] at h
    cases h
  | cleared user _ _ hmistakes =>
    rw [hmistakes] at h
    cases h
  | failed ip _ _ _ hmistakes =>
    rw [hmistakes] at h
    cases h
  | mistaken ip user _ hunlocked _ hclears hmistakes =>
    rw [hmistakes, decide_eq_true_eq] at h
    exact ⟨h ▸ hunlocked, hclears id⟩

/-- A call locks an account exactly when it is the wrong password that makes the count full. -/
theorem locksOut_iff {id : UserId} : locksOut V d c id = true ↔
    mistakes V d c id = true ∧ accountFailures ≤ (d.accountRecord id).failures + 1 := by
  have hafter := accountRecord_after (V := V) d c id
  constructor
  · intro h
    simp only [locksOut, decide_eq_true_eq, Option.isNone_iff_eq_none,
      accountLockedUntil_eq, hafter] at h
    obtain ⟨hbefore, hlocked⟩ := h
    split at hlocked
    · simp at hlocked
    · split at hlocked
      · rename_i hmistakes
        refine ⟨hmistakes, ?_⟩
        by_contra hfew
        rw [accountFailure_counts _ c.nowMs (by omega)] at hlocked
        rw [hbefore] at hlocked
        cases hlocked
      · rw [hbefore] at hlocked
        cases hlocked
  · rintro ⟨hmistakes, hfull⟩
    obtain ⟨hunlocked, hclears⟩ := mistakes_unlocked hmistakes
    simp only [locksOut, hunlocked, accountLockedUntil_eq (d.after V c), hafter, hclears,
      hmistakes, accountFailure_locks _ c.nowMs hfull]
    have hpow : 0 < accountLockMs * 2 ^ min (d.accountRecord id).rounds 10 :=
      Nat.mul_pos (by decide) (Nat.pow_pos (by decide))
    simp [hpow]

/-- The counts of an account's lock are those of the run. -/
theorem accountRecord_run (calls : List Call) (id : UserId) :
    ((({} : Directory).run V calls).accountRecord id).failures = mistakesSince V calls id ∧
      ((({} : Directory).run V calls).accountRecord id).rounds = locksSince V calls id ∧
      ((({} : Directory).run V calls).accountRecord id).failures < accountFailures := by
  induction calls using List.reverseRecOn with
  | nil => exact ⟨rfl, rfl, Nat.zero_lt_succ _⟩
  | append_singleton calls c ih =>
    obtain ⟨hfailures, hrounds, hfew⟩ := ih
    have hlocks : locksOut V (({} : Directory).run V calls) c id = true ↔ _ := locksOut_iff
    have hafter := accountRecord_after (V := V) (({} : Directory).run V calls) c id
    simp only [mistakesSince, locksSince, history_concat, countSince_concat, run_concat]
    rw [← mistakesSince, ← locksSince]
    cases hclears : clears V (({} : Directory).run V calls) c id with
    | true =>
      rw [hclears, if_pos rfl] at hafter
      rw [hafter]
      exact ⟨rfl, rfl, Nat.zero_lt_succ _⟩
    | false =>
      cases hmistakes : mistakes V (({} : Directory).run V calls) c id with
      | false =>
        have hno : locksOut V (({} : Directory).run V calls) c id = false := by
          rw [Bool.eq_false_iff]
          intro h
          rw [(hlocks.mp h).1] at hmistakes
          cases hmistakes
        rw [hclears, hmistakes] at hafter
        rw [hafter, hno]
        exact ⟨hfailures, hrounds, hfew⟩
      | true =>
        rw [hclears, hmistakes] at hafter
        simp only [Bool.false_eq_true, if_false, if_true] at hafter
        by_cases hfull : accountFailures ≤
            ((({} : Directory).run V calls).accountRecord id).failures + 1
        · rw [accountFailure_locks _ c.nowMs hfull] at hafter
          rw [hafter, hlocks.mpr ⟨hmistakes, hfull⟩]
          exact ⟨rfl, congrArg (· + 1) hrounds, Nat.zero_lt_succ _⟩
        · have hno : locksOut V (({} : Directory).run V calls) c id = false := by
            rw [Bool.eq_false_iff]
            exact fun h => hfull (hlocks.mp h).2
          have hfew' : ((({} : Directory).run V calls).accountRecord id).failures + 1 <
              accountFailures := by omega
          rw [accountFailure_counts _ c.nowMs hfew'] at hafter
          rw [hafter, hno]
          exact ⟨congrArg (· + 1) hfailures, hrounds, hfew'⟩

/-- A login attempt on an account that is locked: no password is compared and nobody signs in;
the most that changes is the count of its address. -/
theorem login_locked {email : String} {user : UserRecord} {nowMs untilMs : Nat}
    (password ip userAgent : String) (hu : d.userByEmail (normaliseEmail email) = some user)
    (hlocked : d.accountLockedUntil user.id nowMs = some untilMs) :
    ∃ failure d₁, (d₁ = d ∨ d₁ = d.countAddressFailure ip nowMs) ∧
      d.perform V ⟨.login email password ip userAgent, nowMs⟩ = (.refused failure, d₁) ∧
      failure ≠ .wrongPassword := by
  cases hip : d.addressLockedUntil ip nowMs with
  | some lockedMs =>
    exact ⟨.addressLocked lockedMs, d, .inl rfl, by simp only [perform, login, hip], by simp⟩
  | none =>
    exact ⟨.accountLocked untilMs, _, .inr rfl, by simp only [perform, login, hip, hu, hlocked],
      by simp⟩

/-- **The lock of an account**, over every run with any clock. A call locks an account exactly
when it is the fifth wrong password since the last success, unlock or lock; the lock that is
the `k`-th since the last success or unlock lasts a quarter of an hour times `2 ^ min (k - 1) 10`;
until it is over no call but an unlock or a link that sets the password changes it; and a login
attempt made while it lasts compares no password and signs nobody in. -/
theorem account_lock (calls : List Call) (id : UserId) (c : Call) :
    let d := ({} : Directory).run V calls
    (locksOut V d c id = true ↔
      mistakes V d c id = true ∧ mistakesSince V calls id = accountFailures - 1) ∧
    (locksOut V d c id = true → ∀ nowMs, (d.after V c).accountLockedUntil id nowMs =
      if nowMs < c.nowMs + accountLockMs * 2 ^ min (locksSince V calls id) 10
      then some (c.nowMs + accountLockMs * 2 ^ min (locksSince V calls id) 10) else none) ∧
    ((d.accountLockedUntil id c.nowMs).isSome → clears V d c id = false →
      ∀ nowMs, (d.after V c).accountLockedUntil id nowMs = d.accountLockedUntil id nowMs) ∧
    ∀ email password ip userAgent user, c.op = .login email password ip userAgent →
      d.userByEmail (normaliseEmail email) = some user → user.id = id →
      (d.accountLockedUntil id c.nowMs).isSome →
      (d.after V c).compared = d.compared ∧ clears V d c id = false ∧
        (∃ failure, (d.perform V c).1 = .refused failure) ∧
        (d.after V c).sessions = d.sessions ∧ (d.after V c).users = d.users := by
  intro d
  obtain ⟨hfailures, hrounds, hfew⟩ : (d.accountRecord id).failures = mistakesSince V calls id ∧
      (d.accountRecord id).rounds = locksSince V calls id ∧
      (d.accountRecord id).failures < accountFailures := accountRecord_run calls id
  have hfive : accountFailures = 5 := rfl
  refine ⟨?_, fun h nowMs => ?_, fun hlocked hclears nowMs => ?_,
    fun email password ip userAgent user hop hu hid hlocked => ?_⟩
  · rw [locksOut_iff, ← hfailures]
    constructor
    · rintro ⟨hmistakes, hfull⟩
      exact ⟨hmistakes, by omega⟩
    · rintro ⟨hmistakes, hfull⟩
      exact ⟨hmistakes, by omega⟩
  · obtain ⟨hmistakes, hfull⟩ := locksOut_iff.mp h
    obtain ⟨_, hclears⟩ := mistakes_unlocked hmistakes
    have hafter := accountRecord_after (V := V) d c id
    rw [hclears, hmistakes] at hafter
    simp only [Bool.false_eq_true, if_false, if_true] at hafter
    rw [accountFailure_locks _ c.nowMs hfull] at hafter
    rw [accountLockedUntil_eq, hafter, ← hrounds]
  · have hmistakes : mistakes V d c id = false := by
      rw [Bool.eq_false_iff]
      intro h
      rw [(mistakes_unlocked h).1] at hlocked
      cases hlocked
    rw [accountLockedUntil_eq, accountLockedUntil_eq, accountRecord_after, hclears, hmistakes]
    rfl
  · obtain ⟨untilMs, hlocked⟩ := Option.isSome_iff_exists.mp hlocked
    subst hid
    obtain ⟨op, nowMs⟩ := c
    obtain rfl : op = .login email password ip userAgent := hop
    obtain ⟨failure, d₁, hd₁, hperform, _⟩ := login_locked (V := V) password ip
      userAgent hu hlocked
    have hsame : d₁.compared = d.compared ∧ d₁.sessions = d.sessions ∧ d₁.users = d.users := by
      obtain rfl | rfl := hd₁
      · exact ⟨rfl, rfl, rfl⟩
      · obtain ⟨locks, heq⟩ := countAddressFailure_eq (d := d) ip nowMs
        rw [heq]
        exact ⟨rfl, rfl, rfl⟩
    refine ⟨?_, by simp [clears, tries, hu, hlocked], ⟨failure, by rw [hperform]⟩, ?_, ?_⟩
    · rw [after, hperform]
      exact hsame.1
    · rw [after, hperform]
      exact hsame.2.1
    · rw [after, hperform]
      exact hsame.2.2

def guess (ip : String) (nowMs : Nat) : Call :=
  ⟨.login "ana@x" "a guess" ip "", nowMs⟩

/-- The first administrator's account, and four wrong passwords from two addresses. -/
def guesses : List Call :=
  [⟨.bootstrapInvite, 5⟩, ⟨.acceptFirstAdmin "" "ana@x" "Ana" "a long password" "" "", 9⟩,
    guess "10.0.0.1" 10, guess "10.0.0.2" 11, guess "10.0.0.1" 12, guess "10.0.0.2" 13]

theorem guesses_record : (({} : Directory).run .plain guesses).accountRecord "u_uu" =
    { failures := 4 } := by
  simp only [guesses, guess, run, List.foldl, after, perform, acceptFirstAdmin, login,
    normaliseEmail_ana]
  rfl

theorem guesses_tries : tries .plain (({} : Directory).run .plain guesses)
    (guess "10.0.0.1" 14) = some ("u_uu", false) := by
  simp only [guesses, guess, run, List.foldl, after, perform, acceptFirstAdmin, login,
    normaliseEmail_ana, tries]
  rfl

theorem guesses_user : ((({} : Directory).run .plain (guesses ++ [guess "10.0.0.1" 14])).userByEmail
    (normaliseEmail "ana@x")).map UserRecord.id = some "u_uu" := by
  simp only [guesses, guess, run, List.cons_append, List.nil_append, List.foldl, after, perform,
    acceptFirstAdmin, login, normaliseEmail_ana]
  rfl

/-- The fifth locks the account for a quarter of an hour, in which the right password is refused
too. -/
theorem account_lock_guessed :
    locksOut .plain (({} : Directory).run .plain guesses) (guess "10.0.0.1" 14) "u_uu" = true ∧
      (({} : Directory).run .plain (guesses ++ [guess "10.0.0.1" 14])).accountLockedUntil "u_uu"
        20 = some (14 + accountLockMs) ∧
      ∃ failure, ((({} : Directory).run .plain (guesses ++ [guess "10.0.0.1" 14])).perform .plain
        ⟨.login "ana@x" "a long password" "10.0.0.3" "", 20⟩).1 = .refused failure := by
  obtain ⟨hfailures, hrounds, -⟩ := accountRecord_run (V := .plain) guesses "u_uu"
  rw [guesses_record] at hfailures hrounds
  obtain ⟨hiff, hlasts, -⟩ := account_lock (V := .plain) guesses "u_uu" (guess "10.0.0.1" 14)
  have hlocks := hiff.mpr ⟨by simp [mistakes, guesses_tries], hfailures.symm⟩
  have huntil : (({} : Directory).run .plain (guesses ++ [guess "10.0.0.1" 14])).accountLockedUntil
      "u_uu" 20 = some (14 + accountLockMs) := by
    rw [run_concat, hlasts hlocks, ← hrounds]
    simp [guess, accountLockMs]
  obtain ⟨user, hu, hid⟩ := Option.map_eq_some_iff.mp guesses_user
  exact ⟨hlocks, huntil, ((account_lock (V := .plain) (guesses ++ [guess "10.0.0.1" 14]) "u_uu"
    ⟨.login "ana@x" "a long password" "10.0.0.3" "", 20⟩).2.2.2 _ _ _ _ user rfl hu hid
      (by rw [huntil]; rfl)).2.2.1⟩

/-! ### The lock of an address -/

@[grind =]
def addressRecord (d : Directory) (ip : String) : LockRecord :=
  (d.getLock (ipKey ip)).getD {}

theorem addressRecord_of_locks (h : d'.locks = d.locks) (ip : String) :
    d'.addressRecord ip = d.addressRecord ip := by
  simp only [addressRecord, getLock, h]

theorem addressLockedUntil_eq (d : Directory) {ip : String} (hip : ip ≠ "") (nowMs : Nat) :
    d.addressLockedUntil ip nowMs = if nowMs < (d.addressRecord ip).lockedUntilMs
      then some (d.addressRecord ip).lockedUntilMs else none := by
  have hne : ip.isEmpty = false := by simpa using hip
  cases hlock : d.getLock (ipKey ip) with
  | none => simp [addressLockedUntil, lockedUntil, addressRecord, hlock]
  | some lock =>
    by_cases h : nowMs < lock.lockedUntilMs <;>
      simp [addressLockedUntil, lockedUntil, addressRecord, hlock, hne, Option.filter_some, h]

@[simp] theorem addressRecord_countAccountFailure (user : UserId) (nowMs : Nat) (ip : String) :
    (d.countAccountFailure user nowMs).addressRecord ip = d.addressRecord ip := by
  simp only [countAccountFailure, addressRecord, getLock, putLock]
  rw [AList.lookup_insert_ne (accountKey_ne_ipKey user ip).symm]

@[simp] theorem addressRecord_unlock (user : UserId) (ip : String) :
    (d.unlock user).addressRecord ip = d.addressRecord ip := by
  simp only [unlock, clearLock, addressRecord, getLock]
  rw [AList.lookup_erase_ne (accountKey_ne_ipKey user ip).symm]

theorem addressRecord_countAddressFailure (ip' : String) (nowMs : Nat) {ip : String}
    (hip : ip ≠ "") : (d.countAddressFailure ip' nowMs).addressRecord ip =
      if ip' = ip then (d.addressRecord ip).addressFailure nowMs else d.addressRecord ip := by
  simp only [countAddressFailure]
  split
  · rename_i hempty
    have hne : ip' ≠ ip := by
      intro h
      rw [← h] at hip
      exact hip (by simpa using hempty)
    rw [if_neg hne]
  · simp only [addressRecord, getLock, putLock]
    split
    · rename_i h
      subst h
      rw [AList.lookup_insert]
      rfl
    · rename_i h
      have hkey : ipKey ip ≠ ipKey ip' := fun heq => h (ipKey_injective heq).symm
      rw [AList.lookup_insert_ne hkey]

/-- An attempt from a locked address is not evaluated: it is refused, and changes nothing. -/
theorem login_addressLocked {ip email password userAgent : String} {nowMs untilMs : Nat}
    (h : d.addressLockedUntil ip nowMs = some untilMs) :
    d.perform V ⟨.login email password ip userAgent, nowMs⟩ =
      (.refused (.addressLocked untilMs), d) := by
  simp only [perform, login, h]

/-- A failure is counted only for an address that is not locked. -/
theorem failsFrom_unlocked {ip : String} (h : failsFrom V d c ip = true) :
    d.addressLockedUntil ip c.nowMs = none := by
  cases lockStep (V := V) d c with
  | kept _ _ _ hfails =>
    rw [hfails] at h
    cases h
  | cleared user _ _ _ hfails =>
    rw [hfails] at h
    cases h
  | failed ip' hunlocked _ _ _ hfails =>
    rw [hfails, decide_eq_true_eq] at h
    exact h ▸ hunlocked
  | mistaken ip' user hunlocked _ _ _ _ hfails =>
    rw [hfails, decide_eq_true_eq] at h
    exact h ▸ hunlocked

/-- **One call and the lock of an address.** -/
theorem addressRecord_after (d : Directory) (c : Call) {ip : String} (hip : ip ≠ "") :
    (d.after V c).addressRecord ip =
      if failsFrom V d c ip then (d.addressRecord ip).addressFailure c.nowMs
      else d.addressRecord ip := by
  cases lockStep (V := V) d c with
  | kept locks _ _ hfails =>
    rw [hfails]
    exact addressRecord_of_locks locks ip
  | cleared user locks _ _ hfails =>
    rw [hfails, addressRecord_of_locks locks]
    exact addressRecord_unlock user ip
  | failed ip' _ locks _ _ hfails =>
    rw [hfails, addressRecord_of_locks locks, addressRecord_countAddressFailure _ _ hip]
    simp only [decide_eq_true_eq]
  | mistaken ip' user _ _ locks _ _ hfails =>
    rw [hfails, addressRecord_of_locks locks, addressRecord_countAccountFailure,
      addressRecord_countAddressFailure _ _ hip]
    simp only [decide_eq_true_eq]

/-! ### Thirty failures of an address -/

/-- Whether the window of an address is over at this time. -/
def stale (lock : LockRecord) (nowMs : Nat) : Prop :=
  ipWindowMs < nowMs - lock.windowStartMs

theorem addressFailure_stale {lock : LockRecord} {nowMs : Nat} (h : stale lock nowMs) :
    lock.addressFailure nowMs = { lock with windowStartMs := nowMs, failures := 1 } := by
  have h' : nowMs - lock.windowStartMs > ipWindowMs := h
  simp only [LockRecord.addressFailure, if_pos h']
  rfl

theorem addressFailure_counts {lock : LockRecord} {nowMs : Nat} (h : ¬ stale lock nowMs)
    (hfew : lock.failures + 1 < ipFailures) :
    lock.addressFailure nowMs = { lock with failures := lock.failures + 1 } := by
  have h' : ¬ nowMs - lock.windowStartMs > ipWindowMs := h
  simp only [LockRecord.addressFailure, if_neg h']
  rw [if_neg (by omega)]

theorem addressFailure_locks {lock : LockRecord} {nowMs : Nat} (h : ¬ stale lock nowMs)
    (hfull : ipFailures ≤ lock.failures + 1) :
    lock.addressFailure nowMs =
      { failures := 0, windowStartMs := nowMs, lockedUntilMs := nowMs + ipLockMs,
        rounds := lock.rounds + 1 } := by
  have h' : ¬ nowMs - lock.windowStartMs > ipWindowMs := h
  simp only [LockRecord.addressFailure, if_neg h']
  rw [if_pos hfull]

theorem addressFailure_few (lock : LockRecord) (nowMs : Nat) :
    (lock.addressFailure nowMs).failures < ipFailures := by
  by_cases h : stale lock nowMs
  · rw [addressFailure_stale h]
    exact Nat.one_lt_succ_succ _
  · by_cases hfew : lock.failures + 1 < ipFailures
    · rw [addressFailure_counts h hfew]
      exact hfew
    · rw [addressFailure_locks h (by omega)]
      exact Nat.zero_lt_succ _

/-- The failures of an address among the steps of some calls. -/
@[grind =]
def failuresIn (V : Vault) (d : Directory) (calls : List Call) (ip : String) : Nat :=
  (history V d calls).countP fun s => failsFrom V s.1 s.2 ip

/-- No step of these calls leaves the address locked. -/
def StaysOpen (V : Vault) (d : Directory) (calls : List Call) (ip : String) : Prop :=
  ∀ s ∈ history V d calls, (s.1.after V s.2).addressLockedUntil ip s.2.nowMs = none

theorem failuresIn_cons (d : Directory) (c : Call) (rest : List Call) (ip : String) :
    failuresIn V d (c :: rest) ip =
      failuresIn V (d.after V c) rest ip + if failsFrom V d c ip then 1 else 0 := by
  simp only [failuresIn, history, List.countP_cons]

section Address

variable {ip : String} (hip : ip ≠ "")
include hip

/-- The address's lock never holds a full count. -/
theorem addressRecord_few (calls : List Call) :
    ((({} : Directory).run V calls).addressRecord ip).failures < ipFailures := by
  refine run_induction (I := fun d => (d.addressRecord ip).failures < ipFailures) V
    (Nat.zero_lt_succ _) (fun d c h => ?_) calls
  rw [addressRecord_after d c hip]
  split
  · exact addressFailure_few _ _
  · exact h

/-- While the window lasts and the count does not fill, each failure is counted. -/
theorem addressRecord_counts {calls : List Call}
    (hlast : ∀ c ∈ calls, ¬ stale (d.addressRecord ip) c.nowMs)
    (hfew : (d.addressRecord ip).failures + failuresIn V d calls ip < ipFailures) :
    (d.run V calls).addressRecord ip =
      { d.addressRecord ip with
        failures := (d.addressRecord ip).failures + failuresIn V d calls ip } := by
  induction calls generalizing d with
  | nil => rfl
  | cons c rest ih =>
    rw [failuresIn_cons] at hfew ⊢
    have hstep := addressRecord_after (V := V) d c hip
    have hopen : ¬ stale (d.addressRecord ip) c.nowMs := hlast c List.mem_cons_self
    change ((d.after V c).run V rest).addressRecord ip = _
    cases hfails : failsFrom V d c ip with
    | false =>
      rw [hfails] at hstep hfew
      simp only [Bool.false_eq_true, if_false, Nat.add_zero] at hstep hfew ⊢
      rw [ih (by rw [hstep]; exact fun c hc => hlast c (List.mem_cons_of_mem _ hc))
        (by rw [hstep]; exact hfew), hstep]
    | true =>
      rw [hfails] at hstep hfew
      simp only [if_true] at hstep hfew ⊢
      rw [addressFailure_counts hopen (by omega)] at hstep
      rw [ih (by rw [hstep]; exact fun c hc => hlast c (List.mem_cons_of_mem _ hc))
        (by rw [hstep]; dsimp only; omega), hstep]
      simp only [LockRecord.mk.injEq, and_true]
      omega

/-- While the window lasts, a count that fills locks the address at one of the steps. -/
theorem not_staysOpen {calls : List Call}
    (hlast : ∀ c ∈ calls, ¬ stale (d.addressRecord ip) c.nowMs)
    (hfew : (d.addressRecord ip).failures < ipFailures)
    (hfull : ipFailures ≤ (d.addressRecord ip).failures + failuresIn V d calls ip) :
    ¬ StaysOpen V d calls ip := by
  induction calls generalizing d with
  | nil => simp only [failuresIn, history, List.countP_nil, Nat.add_zero] at hfull; omega
  | cons c rest ih =>
    intro hopen
    rw [failuresIn_cons] at hfull
    have hstep := addressRecord_after (V := V) d c hip
    have hnow : ¬ stale (d.addressRecord ip) c.nowMs := hlast c List.mem_cons_self
    have hrest : StaysOpen V (d.after V c) rest ip :=
      fun s hs => hopen s (List.mem_cons_of_mem _ hs)
    cases hfails : failsFrom V d c ip with
    | false =>
      rw [hfails] at hstep hfull
      simp only [Bool.false_eq_true, if_false, Nat.add_zero] at hstep hfull
      exact ih (by rw [hstep]; exact fun c hc => hlast c (List.mem_cons_of_mem _ hc))
        (by rw [hstep]; exact hfew) (by rw [hstep]; exact hfull) hrest
    | true =>
      rw [hfails] at hstep hfull
      simp only [if_true] at hstep hfull
      by_cases hfills : (d.addressRecord ip).failures + 1 < ipFailures
      · rw [addressFailure_counts hnow hfills] at hstep
        exact ih (by rw [hstep]; exact fun c hc => hlast c (List.mem_cons_of_mem _ hc))
          (by rw [hstep]; exact hfills) (by rw [hstep]; dsimp only; omega) hrest
      · rw [addressFailure_locks hnow (by omega)] at hstep
        have hlocked := hopen (d, c) List.mem_cons_self
        rw [addressLockedUntil_eq _ hip, hstep] at hlocked
        have hlock : 0 < ipLockMs := by decide
        simp [hlock] at hlocked

/-- From a first failure that found the window open, each later one leaves the window as it was
or the count behind the failures. -/
theorem window_or_behind (calls : List Call) {startMs k : Nat}
    (h : (d.addressRecord ip).windowStartMs = startMs ∨ (d.addressRecord ip).failures < k)
    (hk : 0 < k) :
    ((d.run V calls).addressRecord ip).windowStartMs = startMs ∨
      ((d.run V calls).addressRecord ip).failures < k + failuresIn V d calls ip := by
  induction calls generalizing d k with
  | nil => simpa [failuresIn, history] using h
  | cons c rest ih =>
    rw [failuresIn_cons]
    have hstep := addressRecord_after (V := V) d c hip
    change ((d.after V c).run V rest |>.addressRecord ip).windowStartMs = startMs ∨ _
    cases hfails : failsFrom V d c ip with
    | false =>
      rw [hfails] at hstep
      simp only [Bool.false_eq_true, if_false] at hstep
      exact ih (by rw [hstep]; exact h) hk
    | true =>
      rw [hfails] at hstep
      simp only [if_true] at hstep
      have hnext : ((d.after V c).addressRecord ip).windowStartMs = startMs ∨
          ((d.after V c).addressRecord ip).failures < k + 1 := by
        rw [hstep]
        by_cases hstale : stale (d.addressRecord ip) c.nowMs
        · rw [addressFailure_stale hstale]
          exact .inr (by dsimp only; omega)
        · by_cases hfew : (d.addressRecord ip).failures + 1 < ipFailures
          · rw [addressFailure_counts hstale hfew]
            exact h.imp id fun h => by dsimp only; omega
          · rw [addressFailure_locks hstale (by omega)]
            exact .inr (Nat.succ_pos _)
      have hrest := ih hnext (Nat.succ_pos _)
      simp only [if_true]
      rw [show k + (failuresIn V (d.after V c) rest ip + 1) =
        k + 1 + failuresIn V (d.after V c) rest ip by omega]
      exact hrest

/-- A locked address stays locked for as long as it was, whatever is called. -/
theorem addressLock_kept {untilMs : Nat} (h : d.addressLockedUntil ip c.nowMs = some untilMs)
    (nowMs : Nat) :
    (d.after V c).addressLockedUntil ip nowMs = d.addressLockedUntil ip nowMs := by
  have hno : failsFrom V d c ip = false := by
    rw [Bool.eq_false_iff]
    intro hfails
    rw [failsFrom_unlocked hfails] at h
    cases h
  rw [addressLockedUntil_eq _ hip, addressLockedUntil_eq _ hip, addressRecord_after d c hip, hno]
  rfl

/-- Thirty failures of an address within a span of the window's length, in which the address
was not locked. -/
structure Thirty (V : Vault) (d : Directory) (first : Call) (between : List Call) (last : Call)
    (ip : String) : Prop where
  clock : (first :: between ++ [last]).Pairwise fun c c' => c.nowMs ≤ c'.nowMs
  starts : failsFrom V d first ip = true
  ends : failsFrom V (d.run V (first :: between)) last ip = true
  thirty : failuresIn V d (first :: between) ip + 1 = ipFailures
  span : last.nowMs ≤ first.nowMs + ipWindowMs
  unlocked : d.addressLockedUntil ip first.nowMs = none
  stays : StaysOpen V d (first :: between) ip

/-- The thirtieth failure locks exactly when the window the first one found was over then, or
lasts until the last. -/
theorem Thirty.locks_iff {calls : List Call} {first last : Call} {between : List Call}
    (h : Thirty V (({} : Directory).run V calls) first between last ip) :
    (∀ nowMs, last.nowMs ≤ nowMs → nowMs < last.nowMs + ipLockMs →
      ((({} : Directory).run V calls).run V (first :: between ++ [last])).addressLockedUntil ip
        nowMs = some (last.nowMs + ipLockMs)) ↔
      stale ((({} : Directory).run V calls).addressRecord ip) first.nowMs ∨
        ¬ stale ((({} : Directory).run V calls).addressRecord ip) last.nowMs := by
  have hfew : ((({} : Directory).run V calls).addressRecord ip).failures < ipFailures :=
    addressRecord_few hip calls
  generalize ({} : Directory).run V calls = d at h hfew ⊢
  obtain ⟨hclock, hstarts, hends, hthirty, hspan, _, hstays⟩ := h
  have hbefore : ∀ c ∈ first :: between, c.nowMs ≤ last.nowMs := by
    intro c hc
    exact (List.pairwise_append.mp hclock).2.2 c hc last (List.mem_singleton.mpr rfl)
  have hlast := addressRecord_after (V := V) (d.run V (first :: between)) last hip
  rw [hends, if_pos rfl] at hlast
  rw [run_concat]
  -- the thirtieth locks when the window is still open and twenty-nine are counted
  have locks : ¬ stale ((d.run V (first :: between)).addressRecord ip) last.nowMs →
      ipFailures ≤ ((d.run V (first :: between)).addressRecord ip).failures + 1 →
      ∀ nowMs, last.nowMs ≤ nowMs → nowMs < last.nowMs + ipLockMs →
        ((d.run V (first :: between)).after V last).addressLockedUntil ip nowMs =
          some (last.nowMs + ipLockMs) := by
    intro hopen hfull nowMs _ hnow
    rw [addressLockedUntil_eq _ hip, hlast, addressFailure_locks hopen hfull, if_pos hnow]
  have hfirst := addressRecord_after (V := V) d first hip
  rw [hstarts, if_pos rfl] at hfirst
  have hcount : failuresIn V (d.after V first) between ip + 2 = ipFailures := by
    rw [failuresIn_cons, hstarts, if_pos rfl] at hthirty
    omega
  have hrun : d.run V (first :: between) = (d.after V first).run V between := rfl
  constructor
  · intro hlocked
    by_contra hcond
    rw [not_or, not_not] at hcond
    obtain ⟨hopen, hover⟩ := hcond
    -- the window is lost between the two, and the count falls behind
    have hstep : ((d.after V first).addressRecord ip).windowStartMs =
        (d.addressRecord ip).windowStartMs ∨ ((d.after V first).addressRecord ip).failures < 1 := by
      rw [hfirst]
      by_cases hfills : (d.addressRecord ip).failures + 1 < ipFailures
      · rw [addressFailure_counts hopen hfills]
        exact .inl rfl
      · rw [addressFailure_locks hopen (by omega)]
        exact .inr (Nat.zero_lt_one)
    have hend := window_or_behind (V := V) hip between hstep Nat.zero_lt_one
    rw [← hrun] at hend
    have hfewer : ((d.run V (first :: between)).addressRecord ip).failures + 1 < ipFailures ∨
        stale ((d.run V (first :: between)).addressRecord ip) last.nowMs := by
      obtain hwindow | hbehind := hend
      · refine .inr ?_
        rw [stale, hwindow]
        exact hover
      · exact .inl (by omega)
    have hunlocked := failsFrom_unlocked hends
    have hlockMs : 0 < ipLockMs := by decide
    have hnow := hlocked last.nowMs (Nat.le_refl _) (by omega)
    rw [addressLockedUntil_eq _ hip, hlast] at hnow
    rw [addressLockedUntil_eq _ hip] at hunlocked
    have hsame : (((d.run V (first :: between)).addressRecord ip).addressFailure
        last.nowMs).lockedUntilMs =
          ((d.run V (first :: between)).addressRecord ip).lockedUntilMs := by
      by_cases hstale : stale ((d.run V (first :: between)).addressRecord ip) last.nowMs
      · rw [addressFailure_stale hstale]
      · obtain hfewer | hstale' := hfewer
        · rw [addressFailure_counts hstale hfewer]
        · exact absurd hstale' hstale
    rw [hsame, hunlocked] at hnow
    cases hnow
  · rintro (hover | hopen)
    · -- the first failure began the window
      rw [addressFailure_stale hover] at hfirst
      have hwithin : ∀ c ∈ between, ¬ stale ((d.after V first).addressRecord ip) c.nowMs := by
        intro c hc
        have hle := hbefore c (List.mem_cons_of_mem _ hc)
        rw [hfirst, stale]
        dsimp only
        omega
      have hend := addressRecord_counts (V := V) hip hwithin (by rw [hfirst]; dsimp only; omega)
      rw [← hrun, hfirst] at hend
      refine locks ?_ ?_
      · rw [hend, stale]
        dsimp only
        omega
      · rw [hend]
        dsimp only
        omega
    · -- the window lasts until the last: all thirty are counted in it
      have hwithin : ∀ c ∈ first :: between, ¬ stale (d.addressRecord ip) c.nowMs := by
        intro c hc
        have hle := hbefore c hc
        rw [stale] at hopen ⊢
        omega
      have hzero : (d.addressRecord ip).failures + failuresIn V d (first :: between) ip <
          ipFailures := by
        by_contra hfull
        exact not_staysOpen hip hwithin hfew (by omega) hstays
      have hend := addressRecord_counts (V := V) hip hwithin hzero
      refine locks ?_ ?_
      · rw [hend]
        exact hopen
      · rw [hend]
        dsimp only
        omega

end Address

/-- **Thirty failures and the lock of an address**, over every run. Of thirty failures from one
address within a quarter of an hour in which it was not locked, the thirtieth locks the address
for the quarter of an hour that follows exactly when the window the first one found open was
over by then, or lasts until the thirtieth. And while an address is locked no attempt from it is
evaluated, and no call changes the lock. -/
theorem thirty_failures_lock_iff {ip : String} (hip : ip ≠ "") (calls : List Call) :
    (∀ first between last, Thirty V (({} : Directory).run V calls) first between last ip →
      ((∀ nowMs, last.nowMs ≤ nowMs → nowMs < last.nowMs + ipLockMs →
        ((({} : Directory).run V calls).run V (first :: between ++ [last])).addressLockedUntil ip
          nowMs = some (last.nowMs + ipLockMs)) ↔
        stale ((({} : Directory).run V calls).addressRecord ip) first.nowMs ∨
          ¬ stale ((({} : Directory).run V calls).addressRecord ip) last.nowMs)) ∧
    (∀ email password userAgent nowMs untilMs,
      (({} : Directory).run V calls).addressLockedUntil ip nowMs = some untilMs →
      (({} : Directory).run V calls).perform V ⟨.login email password ip userAgent, nowMs⟩ =
        (.refused (.addressLocked untilMs), ({} : Directory).run V calls)) ∧
    ∀ c untilMs, (({} : Directory).run V calls).addressLockedUntil ip c.nowMs = some untilMs →
      ∀ nowMs, (({} : Directory).run V (calls ++ [c])).addressLockedUntil ip nowMs =
        (({} : Directory).run V calls).addressLockedUntil ip nowMs := by
  refine ⟨fun first between last h => h.locks_iff hip,
    fun email password userAgent nowMs untilMs h => login_addressLocked h,
    fun c untilMs h nowMs => ?_⟩
  rw [run_concat]
  exact addressLock_kept hip h nowMs

/-- An attempt on an account that does not exist. -/
@[grind =]
def strangerAt (nowMs : Nat) : Call :=
  ⟨.login "nobody" "a guess" "10.0.0.1" "", nowMs⟩

/-- Twenty failures at one time and nine at another, between a first and a last. -/
def strangersAt (nowMs laterMs : Nat) : List Call :=
  List.replicate 19 (strangerAt nowMs) ++ List.replicate 9 (strangerAt laterMs)

set_option maxRecDepth 20000 in
theorem thirty_strangers : Thirty .plain (({} : Directory).run .plain [strangerAt 2000000])
    (strangerAt 2840000) (strangersAt 2840000 2960000) (strangerAt 2960000) "10.0.0.1" where
  clock := by decide
  starts := by decide
  ends := by decide
  thirty := by decide
  span := by decide
  unlocked := by decide
  stays := by unfold StaysOpen; decide

set_option maxRecDepth 20000 in
/-- A failure, and fourteen minutes later thirty more within two minutes: the window ends
between them, and the thirtieth does not lock. -/
theorem thirty_failures_straddle :
    ¬ ∀ (calls : List Call) (ip : String) (first : Call) (between : List Call) (last : Call),
      ip ≠ "" → Thirty .plain (({} : Directory).run .plain calls) first between last ip →
      ∀ nowMs, last.nowMs ≤ nowMs → nowMs < last.nowMs + ipLockMs →
        ((({} : Directory).run .plain calls).run .plain
          (first :: between ++ [last])).addressLockedUntil ip nowMs =
            some (last.nowMs + ipLockMs) := by
  intro h
  have hip : "10.0.0.1" ≠ "" := by decide
  have hlocked := h [strangerAt 2000000] "10.0.0.1" _ _ _ hip thirty_strangers
  exact absurd (hlocked 2960000 (Nat.le_refl _) (by decide)) (by decide)

theorem thirty_failures_lock_iff_stranger :
    (∀ nowMs, 2960000 ≤ nowMs → nowMs < 2960000 + ipLockMs →
      ((({} : Directory).run .plain [strangerAt 2000000]).run .plain (strangerAt 2840000 ::
        strangersAt 2840000 2960000 ++ [strangerAt 2960000])).addressLockedUntil "10.0.0.1"
          nowMs = some (2960000 + ipLockMs)) ↔
      stale ((({} : Directory).run .plain [strangerAt 2000000]).addressRecord "10.0.0.1")
          2840000 ∨
        ¬ stale ((({} : Directory).run .plain [strangerAt 2000000]).addressRecord "10.0.0.1")
          2960000 :=
  (thirty_failures_lock_iff (by decide) [strangerAt 2000000]).1 _ _ _ thirty_strangers

end Directory

end LocalSpace
