import LocalSpace.Directory

/-!
# What one call does to the accounts, the sessions and the links

`Did` lists what a call can do to these tables, with everything it checked before; the locks
are left open. `perform_did` is the inversion of `perform`, and an invariant of these tables is
a case analysis of `Did`. The first one is `Registered`: an account is under its own id, which
was drawn for it, and the table of emails leads to it and to nothing else.
-/

namespace LocalSpace

/-- What a key's row becomes, where the rows are written anew one by one. -/
theorem Table.lookup_foldl {K W : Type} [DecidableEq K] (change : W → Option W) (k : K)
    (rows : List (Sigma fun _ : K => W)) (t : Table K W) (hnodup : rows.NodupKeys) :
    (rows.foldl (fun t row => match change row.2 with
      | some w => AList.insert row.1 w t
      | none => t) t).lookup k =
      ((List.dlookup k rows).bind change).elim (t.lookup k) some := by
  induction rows generalizing t with
  | nil => rfl
  | cons row rest ih =>
    obtain ⟨a, w⟩ := row
    rw [List.nodupKeys_cons] at hnodup
    rw [List.foldl_cons, ih _ hnodup.2]
    by_cases hk : k = a
    · subst hk
      have hrest : List.dlookup k rest = none := List.dlookup_eq_none.mpr hnodup.1
      rw [hrest, List.dlookup_cons_eq]
      cases hw : change w <;> simp [hw]
    · rw [List.dlookup_cons_ne _ _ hk]
      cases hw : change w <;> simp [AList.lookup_insert_ne hk]

theorem Table.lookup_rewrite {K W : Type} [DecidableEq K] (t : Table K W) (change : W → Option W)
    (k : K) :
    (Table.rewrite t change).lookup k = (t.lookup k).map fun w => (change w).getD w := by
  refine Eq.trans (Table.lookup_foldl change k t.entries t t.nodupKeys) ?_
  have hk : List.dlookup k t.entries = t.lookup k := rfl
  rw [hk]
  cases t.lookup k with
  | none => rfl
  | some w => cases hw : change w <;> simp [hw]

namespace Directory

variable (V : Vault)

/-- The session ids and links an answer hands out. -/
def Answer.handsOut : Answer → Bool
  | .created _ _ | .link _ | .signedIn _ => true
  | _ => false

/-- The account an account's record becomes when it signs in by a password just set. -/
def UserRecord.withPassword (user : UserRecord) (hash : String) (nowMs : Nat) : UserRecord :=
  { user with
    passwordHash := some hash, passwordSetMs := some nowMs, lastLoginMs := some nowMs }

/-- What a call can do, by its answer and the directory it leaves. -/
inductive Did (c : Call) (d : Directory) : Answer → Directory → Prop
  | nothing {a : Answer} (n : Nat) (locks : Table String LockRecord) (compared : List String)
      (silent : a.handsOut = false)
      (revoked : ∀ user, c.op = .revokeSessions user → False)
      (op : ∀ id, c.op = .logout id →
        ∀ s, d.getSession (keyOf V id) = some s → s.revoked = true)
      (roles : ∀ id roles, c.op = .setRoles id roles → d.getUser id = none)
      (disabled : ∀ id disabled, c.op = .setDisabled id disabled → d.getUser id = none)
      (reset : ∀ id, c.op = .resetPassword id → d.getUser id = none) :
      Did c d a { d with drawn := d.drawn + n, locks := locks, compared := compared }
  | created {email name : String} {roles : List UserRole}
      (op : c.op = .createUser email name roles)
      (new : d.userByEmail (normaliseEmail email) = none) {user : UserRecord}
      (fresh : user = freshUser V d.drawn (normaliseEmail email) name roles c.nowMs) :
      Did c d (.created user (V.token (d.drawn + 1)))
        ((d.draw.putUser user).invite V user.id c.nowMs).2
  | minted (op : c.op = .bootstrapInvite) (empty : d.isEmpty = true) :
      Did c d (.link (V.token d.drawn))
        { d with
          drawn := d.drawn + 1
          invites := (Table.rewrite d.invites fun i =>
            if i.firstAdmin ∧ i.usedMs = none then some { i with usedMs := some c.nowMs }
            else none).insert (keyOf V (V.token d.drawn))
              { user := "", createdMs := c.nowMs, expiresMs := c.nowMs + inviteTtlMs
                usedMs := none, firstAdmin := true } }
  | accepted {token email name password ip userAgent : String} (hash : String)
      (op : c.op = .acceptFirstAdmin token email name password ip userAgent)
      {link : InviteRecord} (found : d.getInvite (keyOf V token) = some link)
      (first : link.firstAdmin = true) (unused : link.usedMs = none)
      (live : c.nowMs < link.expiresMs) (empty : d.isEmpty = true) {user : UserRecord}
      (fresh : user = (freshUser V (d.drawn + 1) (normaliseEmail email) (trim name) [.admin]
        c.nowMs).withPassword hash c.nowMs) :
      Did c d (.signedIn ⟨user, V.token (d.drawn + 2), c.nowMs + V.sessionTtlMs⟩)
        (((d.draw.draw.putUser user).putInvite (keyOf V token)
          { link with usedMs := some c.nowMs, user := user.id }).startSession V user ip userAgent
            c.nowMs).2
  | passworded {token password ip userAgent : String} (hash : String)
      (locks : Table String LockRecord)
      (op : c.op = .setPassword token password ip userAgent)
      {link : InviteRecord} (found : d.getInvite (keyOf V token) = some link)
      (unused : link.usedMs = none) (live : c.nowMs < link.expiresMs) {user : UserRecord}
      (account : d.getUser link.user = some user) (enabled : user.disabled = false) :
      Did c d (.signedIn ⟨user.withPassword hash c.nowMs, V.token (d.drawn + 1),
          c.nowMs + V.sessionTtlMs⟩)
        ((({ d with drawn := d.drawn + 1, locks := locks }.putInvite (keyOf V token)
          { link with usedMs := some c.nowMs }).putUser
            (user.withPassword hash c.nowMs)).startSession V (user.withPassword hash c.nowMs)
              ip userAgent c.nowMs).2
  | loggedIn {email password ip userAgent : String} (locks : Table String LockRecord)
      (compared : List String) (op : c.op = .login email password ip userAgent)
      {user : UserRecord} (account : d.userByEmail (normaliseEmail email) = some user)
      (enabled : user.disabled = false) :
      Did c d (.signedIn ⟨{ user with lastLoginMs := some c.nowMs }, V.token d.drawn,
          c.nowMs + V.sessionTtlMs⟩)
        ((({ d with locks := locks, compared := compared }.putUser
          { user with lastLoginMs := some c.nowMs }).startSession V
            { user with lastLoginMs := some c.nowMs } ip userAgent c.nowMs).2)
  | roles {id : UserId} {roles : List UserRole} (op : c.op = .setRoles id roles)
      {user : UserRecord} (account : d.getUser id = some user) :
      Did c d (.changed { user with roles := roles })
        ((d.putUser { user with roles := roles }).revokeSessions id).2
  | disabled {id : UserId} (op : c.op = .setDisabled id true)
      {user : UserRecord} (account : d.getUser id = some user) :
      Did c d (.changed { user with disabled := true })
        ((d.putUser { user with disabled := true }).revokeSessions id).2
  | enabled {id : UserId} (op : c.op = .setDisabled id false)
      {user : UserRecord} (account : d.getUser id = some user) :
      Did c d (.changed { user with disabled := false })
        (d.putUser { user with disabled := false })
  | reset {id : UserId} (op : c.op = .resetPassword id)
      {user : UserRecord} (account : d.getUser id = some user) :
      Did c d (.link (V.token d.drawn))
        (((d.putUser { user with passwordHash := none, passwordSetMs := none }).revokeSessions
          id).2.invite V id c.nowMs).2
  | loggedOut {id : String} (op : c.op = .logout id) {s : SessionRecord}
      (found : d.getSession (keyOf V id) = some s) (live : s.revoked = false) :
      Did c d (.loggedOut true) (d.putSession (keyOf V id) { s with revoked := true })
  | revoked {user : UserId} {n : Nat} (op : c.op = .revokeSessions user) :
      Did c d (.ended n) (d.revokeSessions user).2

variable {V} {d d' : Directory} {c : Call} {a : Answer}

/-! ### The inversion of one call -/

/-- An operation that ends no session and changes no account by itself. -/
def Op.quiet : Op → Bool
  | .revokeSessions _ | .logout _ | .setRoles _ _ | .setDisabled _ _ | .resetPassword _ => false
  | _ => true

/-- A call that leaves all but the locks and the draws alone. -/
theorem Did.idle (hq : c.op.quiet = true) (ha : a.handsOut = false) (n : Nat)
    (locks : Table String LockRecord) (compared : List String) :
    Did V c d a { d with drawn := d.drawn + n, locks := locks, compared := compared } := by
  refine .nothing n locks compared ha ?_ ?_ ?_ ?_ ?_ <;> intros <;> simp_all [Op.quiet]

/-- A call that failed or was refused before it wrote anything. -/
theorem Did.refl (hq : c.op.quiet = true) (ha : a.handsOut = false) : Did V c d a d :=
  Did.idle hq ha 0 d.locks d.compared

theorem createUser_did {email name : String} {roles : List UserRole}
    (op : c.op = .createUser email name roles) :
    Did V c d (d.perform V c).1 (d.perform V c).2 := by
  simp only [perform, op, createUser]
  split
  · exact .refl (by rw [op]; rfl) rfl
  · split
    · exact .refl (by rw [op]; rfl) rfl
    · rename_i hnew
      exact .created op (by simpa using hnew) rfl

theorem bootstrapInvite_did (op : c.op = .bootstrapInvite) :
    Did V c d (d.perform V c).1 (d.perform V c).2 := by
  simp only [perform, op, bootstrapInvite]
  split
  · exact .refl (by rw [op]; rfl) rfl
  · rename_i hempty
    exact .minted op (by simpa using hempty)

theorem acceptFirstAdmin_did {token email name password ip userAgent : String}
    (op : c.op = .acceptFirstAdmin token email name password ip userAgent) :
    Did V c d (d.perform V c).1 (d.perform V c).2 := by
  have hq : c.op.quiet = true := by rw [op]; rfl
  simp only [perform, op, acceptFirstAdmin]
  cases hlink : (d.getInvite (keyOf V token)).filter fun i =>
      i.firstAdmin ∧ i.usedMs = none ∧ i.expiresMs > c.nowMs with
  | none => exact .refl hq rfl
  | some link =>
    obtain ⟨hfound, hlive⟩ := Option.filter_eq_some_iff.mp hlink
    simp only [decide_eq_true_eq] at hlive
    dsimp only
    split
    · exact .refl hq rfl
    · rename_i hempty
      split
      · exact .refl hq rfl
      · split
        · exact .refl hq rfl
        · cases passwordAcceptable V password with
          | error e => exact .refl hq rfl
          | ok _ =>
            simp only [bind, Except.bind]
            cases V.hashPassword d.drawn password with
            | error e => exact .refl hq rfl
            | ok hash =>
              exact .accepted hash op hfound hlive.1 hlive.2.1 hlive.2.2
                (by simpa using hempty) rfl

theorem setPassword_did {token password ip userAgent : String}
    (op : c.op = .setPassword token password ip userAgent) :
    Did V c d (d.perform V c).1 (d.perform V c).2 := by
  have hq : c.op.quiet = true := by rw [op]; rfl
  simp only [perform, op, setPassword]
  cases huser : d.inviteUser V token c.nowMs with
  | none => exact .refl hq rfl
  | some user =>
    simp only [inviteUser] at huser
    split at huser
    · cases huser
    · rename_i link hfound
      split at huser
      · cases huser
      · rename_i hlive
        obtain ⟨haccount, henabled⟩ := Option.filter_eq_some_iff.mp huser
        simp only [not_or, Bool.not_eq_true, Option.isSome_eq_false_iff, Option.isNone_iff_eq_none,
          not_le] at hlive
        dsimp only
        cases passwordAcceptable V password with
        | error e => exact .refl hq rfl
        | ok _ =>
          simp only [bind, Except.bind]
          cases V.hashPassword d.drawn password with
          | error e => exact .refl hq rfl
          | ok hash =>
            have hfound' : d.draw.getInvite (keyOf V token) = some link := hfound
            simp only [hfound']
            exact .passworded hash (d.locks.erase (accountKey user.id)) op hfound hlive.1 hlive.2
              haccount (by simpa using henabled)

theorem countAddressFailure_eq (ip : String) (nowMs : Nat) :
    ∃ locks, d.countAddressFailure ip nowMs = { d with locks := locks } := by
  simp only [countAddressFailure]
  split
  · exact ⟨d.locks, rfl⟩
  · exact ⟨_, rfl⟩

/-- A password is compared once, nothing else changes, and a comparison refuses for no lock. -/
theorem checkPassword_compared {user : UserRecord} {password : String}
    {outcome : Except LoginFailure Unit} (h : d.checkPassword V user password = (outcome, d')) :
    (∃ compared, d' = { d with compared := compared }) ∧
      ∀ failure, outcome = .error failure → ∀ untilMs, failure ≠ .addressLocked untilMs := by
  simp only [checkPassword] at h
  split at h
  · cases h
    exact ⟨⟨_, rfl⟩, fun failure hf => by cases hf; simp⟩
  · cases h
    exact ⟨⟨_, rfl⟩, fun failure hf => by cases hf; simp⟩
  · rename_i hash _ _
    cases hv : V.verifyPassword password hash with
    | true =>
      simp only [verify, hv] at h
      cases h
      exact ⟨⟨_, rfl⟩, fun failure hf => by cases hf⟩
    | false =>
      simp only [verify, hv] at h
      cases h
      exact ⟨⟨_, rfl⟩, fun failure hf => by cases hf; simp⟩

theorem login_did {email password ip userAgent : String}
    (op : c.op = .login email password ip userAgent) :
    Did V c d (d.perform V c).1 (d.perform V c).2 := by
  have hq : c.op.quiet = true := by rw [op]; rfl
  simp only [perform, op, login]
  cases d.addressLockedUntil ip c.nowMs with
  | some untilMs => exact .refl hq rfl
  | none =>
    cases huser : d.userByEmail (normaliseEmail email) with
    | none =>
      obtain ⟨locks, hlocks⟩ :=
        countAddressFailure_eq (d := (d.verify V password V.decoy).2) ip c.nowMs
      simp only [hlocks]
      exact .idle hq rfl 0 _ _
    | some user =>
      dsimp only
      cases d.accountLockedUntil user.id c.nowMs with
      | some untilMs =>
        obtain ⟨locks, hlocks⟩ := countAddressFailure_eq (d := d) ip c.nowMs
        simp only [hlocks]
        exact .idle hq rfl 0 _ _
      | none =>
        cases hcheck : d.checkPassword V user password with
        | mk outcome d₁ =>
          obtain ⟨⟨compared, rfl⟩, _⟩ := checkPassword_compared hcheck
          cases outcome with
          | error failure =>
            obtain ⟨locks, hlocks⟩ := countAddressFailure_eq
              (d := { d with compared := compared }) ip c.nowMs
            simp only [hlocks]
            split
            · exact .idle hq rfl 0 _ _
            · exact .idle hq rfl 0 _ _
          | ok _ =>
            refine .loggedIn _ _ op huser ?_
            simp only [checkPassword] at hcheck
            split at hcheck
            · cases hcheck
            · cases hcheck
            · assumption

/-- **What one call does** to the accounts, the sessions and the links. -/
theorem perform_did (d : Directory) (c : Call) :
    Did V c d (d.perform V c).1 (d.perform V c).2 := by
  cases op : c.op with
  | createUser email name roles => exact createUser_did op
  | bootstrapInvite => exact bootstrapInvite_did op
  | acceptFirstAdmin token email name password ip userAgent => exact acceptFirstAdmin_did op
  | setRoles id roles =>
    simp only [perform, op, setRoles]
    cases hu : d.getUser id with
    | none =>
      exact .nothing 0 _ _ rfl (by simp [op]) (by simp [op]) (by simp_all) (by simp [op])
        (by simp [op])
    | some user => exact .roles op hu
  | setDisabled id disabled =>
    simp only [perform, op, setDisabled]
    cases hu : d.getUser id with
    | none =>
      exact .nothing 0 _ _ rfl (by simp [op]) (by simp [op]) (by simp [op]) (by simp_all)
        (by simp [op])
    | some user =>
      cases disabled with
      | true => exact .disabled op hu
      | false => exact .enabled op hu
  | resetPassword id =>
    simp only [perform, op, resetPassword]
    cases hu : d.getUser id with
    | none =>
      exact .nothing 0 _ _ rfl (by simp [op]) (by simp [op]) (by simp [op]) (by simp [op])
        (by simp_all)
    | some user => exact .reset op hu
  | unlock id =>
    simp only [perform, op]
    exact .idle (by rw [op]; rfl) rfl 0 _ _
  | setPassword token password ip userAgent => exact setPassword_did op
  | login email password ip userAgent => exact login_did op
  | logout id =>
    simp only [perform, op, logout]
    cases hs : d.getSession (keyOf V id) with
    | none =>
      exact .nothing 0 _ _ rfl (by simp [op]) (by simp_all) (by simp [op]) (by simp [op])
        (by simp [op])
    | some s =>
      dsimp only
      cases hr : s.revoked with
      | true =>
        exact .nothing 0 _ _ rfl (by simp [op]) (by simp_all) (by simp [op]) (by simp [op])
          (by simp [op])
      | false => exact .loggedOut op hs hr
  | revokeSessions user =>
    simp only [perform, op]
    exact .revoked op
  | restart =>
    simp only [perform, op]
    exact .refl (by rw [op]; rfl) rfl

/-! ### What the small writes leave alone -/

@[simp] theorem putUser_drawn (user : UserRecord) : (d.putUser user).drawn = d.drawn := rfl
@[simp] theorem putInvite_drawn (key : String) (link : InviteRecord) :
    (d.putInvite key link).drawn = d.drawn := rfl
@[simp] theorem draw_drawn : d.draw.drawn = d.drawn + 1 := rfl
@[simp] theorem invite_drawn (user : UserId) (nowMs : Nat) :
    (d.invite V user nowMs).2.drawn = d.drawn + 1 := rfl
@[simp] theorem startSession_drawn (user : UserRecord) (ip userAgent : String) (nowMs : Nat) :
    (d.startSession V user ip userAgent nowMs).2.drawn = d.drawn + 1 := rfl
@[simp] theorem revokeSessions_drawn (user : UserId) :
    (d.revokeSessions user).2.drawn = d.drawn := rfl
@[simp] theorem putSession_drawn (key : String) (s : SessionRecord) :
    (d.putSession key s).drawn = d.drawn := rfl

@[simp] theorem getUser_startSession (user : UserRecord) (ip userAgent : String) (nowMs : Nat)
    (id : UserId) : (d.startSession V user ip userAgent nowMs).2.getUser id = d.getUser id := rfl
@[simp] theorem getUser_invite (user : UserId) (nowMs : Nat) (id : UserId) :
    (d.invite V user nowMs).2.getUser id = d.getUser id := rfl
@[simp] theorem getUser_revokeSessions (user id : UserId) :
    (d.revokeSessions user).2.getUser id = d.getUser id := rfl
@[simp] theorem getUser_putInvite (key : String) (link : InviteRecord) (id : UserId) :
    (d.putInvite key link).getUser id = d.getUser id := rfl

@[simp] theorem getUser_putUser (user : UserRecord) :
    (d.putUser user).getUser user.id = some user :=
  AList.lookup_insert _

theorem getUser_putUser_ne {user : UserRecord} {id : UserId} (h : id ≠ user.id) :
    (d.putUser user).getUser id = d.getUser id :=
  AList.lookup_insert_ne h

theorem isEmpty_iff : d.isEmpty = true ↔ ∀ id, d.getUser id = none := by
  constructor
  · intro h id
    have hnil : d.users.entries = [] := List.isEmpty_iff.mp h
    simp only [getUser, AList.lookup, hnil, List.dlookup_nil]
  · intro h
    by_contra hne
    cases hrows : d.users.entries with
    | nil => simp [isEmpty, hrows] at hne
    | cons row rest =>
      obtain ⟨id, user⟩ := row
      have hrow := h id
      simp only [getUser, AList.lookup, hrows, List.dlookup_cons_eq] at hrow
      cases hrow

/-! ### The table of emails leads to every account -/

/-- Every account is under its own id, drawn for it, and the emails lead to the accounts. -/
structure Registered (V : Vault) (d : Directory) : Prop where
  keyed : ∀ id u, d.getUser id = some u → u.id = id
  drawn : ∀ id u, d.getUser id = some u → ∃ n < d.drawn, id = "u_" ++ V.uuid n
  found : ∀ id u, d.getUser id = some u → d.emails.lookup u.email = some id
  owner : ∀ email id, d.emails.lookup email = some id →
    ∃ u, d.getUser id = some u ∧ u.email = email

theorem Registered.empty : Registered V {} := by
  constructor <;> intros <;> simp_all [getUser]

theorem Registered.of_eq (h : Registered V d) (hu : d'.users = d.users)
    (he : d'.emails = d.emails) (hd : d.drawn ≤ d'.drawn) : Registered V d' := by
  have hget : ∀ id, d'.getUser id = d.getUser id := fun id => by simp only [getUser, hu]
  refine ⟨fun id u hid => h.keyed id u (hget id ▸ hid), fun id u hid => ?_, fun id u hid => ?_,
    fun email id hem => ?_⟩
  · obtain ⟨n, hn, hid⟩ := h.drawn id u (hget id ▸ hid)
    exact ⟨n, by omega, hid⟩
  · rw [he]
    exact h.found id u (hget id ▸ hid)
  · rw [he] at hem
    obtain ⟨u, hid, hmail⟩ := h.owner email id hem
    exact ⟨u, (hget id).symm ▸ hid, hmail⟩

/-- A changed record of an account that keeps its id and its email. -/
theorem Registered.putUser {user user' : UserRecord} {id : UserId} (h : Registered V d)
    (hu : d.getUser id = some user) (hid : user'.id = user.id)
    (hmail : user'.email = user.email) : Registered V (d.putUser user') := by
  have hkey : user'.id = id := hid.trans (h.keyed id user hu)
  subst hkey
  have hrow := h.found _ user hu
  have hemails : ∀ email,
      (d.putUser user').emails.lookup email = d.emails.lookup email := by
    intro email
    by_cases hem : email = user'.email
    · subst hem
      exact (AList.lookup_insert _).trans (hmail ▸ hrow.symm)
    · exact AList.lookup_insert_ne hem
  refine ⟨fun i u hi => ?_, fun i u hi => ?_, fun i u hi => ?_, fun email i hem => ?_⟩
  · by_cases hne : i = user'.id
    · subst hne
      rw [getUser_putUser] at hi
      cases hi
      rfl
    · rw [getUser_putUser_ne hne] at hi
      exact h.keyed i u hi
  · by_cases hne : i = user'.id
    · subst hne
      exact h.drawn _ user hu
    · rw [getUser_putUser_ne hne] at hi
      exact h.drawn i u hi
  · rw [hemails]
    by_cases hne : i = user'.id
    · subst hne
      rw [getUser_putUser] at hi
      cases hi
      rw [hmail]
      exact hrow
    · rw [getUser_putUser_ne hne] at hi
      exact h.found i u hi
  · rw [hemails] at hem
    obtain ⟨u, hi, hu'⟩ := h.owner email i hem
    by_cases hne : i = user'.id
    · subst hne
      rw [hu] at hi
      cases hi
      exact ⟨user', getUser_putUser _, hmail.trans hu'⟩
    · exact ⟨u, (getUser_putUser_ne hne).trans hi, hu'⟩

/-- A new account under an id no account has and an email no account has. -/
theorem Registered.addUser {user : UserRecord} {n : Nat} (h : Registered V d)
    (hid : user.id = "u_" ++ V.uuid n) (hn : n < d.drawn) (hnew : d.getUser user.id = none)
    (hmail : d.emails.lookup user.email = none) : Registered V (d.putUser user) := by
  refine ⟨fun i u hi => ?_, fun i u hi => ?_, fun i u hi => ?_, fun email i hem => ?_⟩
  · by_cases hne : i = user.id
    · subst hne
      rw [getUser_putUser] at hi
      cases hi
      rfl
    · rw [getUser_putUser_ne hne] at hi
      exact h.keyed i u hi
  · by_cases hne : i = user.id
    · exact ⟨n, hn, hne.trans hid⟩
    · rw [getUser_putUser_ne hne] at hi
      exact h.drawn i u hi
  · by_cases hne : i = user.id
    · subst hne
      rw [getUser_putUser] at hi
      cases hi
      exact AList.lookup_insert _
    · rw [getUser_putUser_ne hne] at hi
      have hem : u.email ≠ user.email := by
        intro heq
        have := h.found i u hi
        rw [heq, hmail] at this
        cases this
      exact (AList.lookup_insert_ne hem).trans (h.found i u hi)
  · by_cases hne : email = user.email
    · subst hne
      have hi : i = user.id := by
        have hrow : (d.putUser user).emails.lookup user.email = some user.id :=
          AList.lookup_insert _
        rw [hem] at hrow
        exact Option.some.inj hrow
      subst hi
      exact ⟨user, getUser_putUser _, rfl⟩
    · have hem' : d.emails.lookup email = some i := (AList.lookup_insert_ne hne).symm.trans hem
      obtain ⟨u, hi, hu⟩ := h.owner email i hem'
      have hi' : i ≠ user.id := by
        intro heq
        rw [heq, hnew] at hi
        cases hi
      exact ⟨u, (getUser_putUser_ne hi').trans hi, hu⟩

/-- A number not drawn yet gives an id no account has. -/
theorem Registered.unused (h : Registered V d) (hV : Function.Injective V.uuid) {n : Nat}
    (hn : d.drawn ≤ n) : d.getUser ("u_" ++ V.uuid n) = none := by
  cases hu : d.getUser ("u_" ++ V.uuid n) with
  | none => rfl
  | some u =>
    obtain ⟨m, hm, heq⟩ := h.drawn _ u hu
    have hnm : n = m := hV ((String.append_right_inj _).mp heq)
    omega

/-- No account has the empty id. -/
theorem Registered.id_ne (h : Registered V d) {id : UserId} {user : UserRecord}
    (hu : d.getUser id = some user) : id ≠ "" := by
  obtain ⟨n, _, hn⟩ := h.drawn id user hu
  rw [hn]
  intro hnil
  simp at hnil

theorem Registered.userByEmail (h : Registered V d) {email : String} {user : UserRecord}
    (hu : d.userByEmail email = some user) :
    d.getUser user.id = some user ∧ user.email = email := by
  obtain ⟨id, hem, hid⟩ := Option.bind_eq_some_iff.mp hu
  obtain ⟨u, hu', hmail⟩ := h.owner email id hem
  have hkey := h.keyed id user hid
  rw [hid] at hu'
  cases hu'
  exact ⟨hkey ▸ hid, hmail⟩

theorem Registered.new_email (h : Registered V d) {email : String}
    (hnew : d.userByEmail email = none) : d.emails.lookup email = none := by
  cases hem : d.emails.lookup email with
  | none => rfl
  | some id =>
    obtain ⟨u, hu, _⟩ := h.owner email id hem
    simp [Directory.userByEmail, hem, hu] at hnew

/-- Every call keeps the accounts registered. -/
theorem Did.registered (hV : Function.Injective V.uuid) (h : Registered V d)
    (did : Did V c d a d') : Registered V d' := by
  cases did with
  | nothing n locks compared => exact h.of_eq rfl rfl (Nat.le_add_right _ _)
  | created op new fresh =>
    rename_i email name roles user
    have hdraw : Registered V d.draw := h.of_eq rfl rfl (Nat.le_succ _)
    have hnew : d.getUser user.id = none := by
      rw [fresh]
      exact h.unused hV (Nat.le_refl _)
    have hmail : d.emails.lookup user.email = none := by
      rw [fresh]
      exact h.new_email new
    have hput : Registered V (d.draw.putUser user) :=
      hdraw.addUser (by rw [fresh]; rfl) (Nat.lt_succ_self _) hnew hmail
    exact hput.of_eq rfl rfl (by simp)
  | minted => exact h.of_eq rfl rfl (by simp)
  | accepted hash op found first unused live empty fresh =>
    rename_i token email name password ip userAgent link user
    have hdraw : Registered V d.draw.draw := h.of_eq rfl rfl (by simp; omega)
    have hnew : d.getUser user.id = none := isEmpty_iff.mp empty user.id
    have hmail : d.emails.lookup user.email = none := by
      cases hem : d.emails.lookup user.email with
      | none => rfl
      | some id =>
        obtain ⟨u, hu, _⟩ := h.owner _ id hem
        rw [isEmpty_iff.mp empty id] at hu
        cases hu
    have hput : Registered V (d.draw.draw.putUser user) :=
      hdraw.addUser (by rw [fresh]; rfl) (Nat.lt_succ_self _) hnew hmail
    exact hput.of_eq rfl rfl (by simp)
  | passworded hash locks op found unused live account enabled =>
    rename_i user
    have hput : Registered V (d.putUser (user.withPassword hash c.nowMs)) :=
      h.putUser account rfl rfl
    exact hput.of_eq rfl rfl (by simp; omega)
  | loggedIn locks compared op account enabled =>
    rename_i user
    have hput : Registered V (d.putUser { user with lastLoginMs := some c.nowMs }) :=
      h.putUser (h.userByEmail account).1 rfl rfl
    exact hput.of_eq rfl rfl (by simp)
  | roles op account =>
    rename_i id roles user
    have hput : Registered V (d.putUser { user with roles := roles }) := h.putUser account rfl rfl
    exact hput.of_eq rfl rfl (by simp)
  | disabled op account =>
    rename_i user
    have hput : Registered V (d.putUser { user with disabled := true }) :=
      h.putUser account rfl rfl
    exact hput.of_eq rfl rfl (by simp)
  | enabled op account => exact h.putUser account rfl rfl
  | reset op account =>
    rename_i user
    have hput : Registered V
        (d.putUser { user with passwordHash := none, passwordSetMs := none }) :=
      h.putUser account rfl rfl
    exact hput.of_eq rfl rfl (by simp)
  | loggedOut => exact h.of_eq rfl rfl (Nat.le_refl _)
  | revoked => exact h.of_eq rfl rfl (Nat.le_refl _)

theorem registered_run (hV : Function.Injective V.uuid) (calls : List Call) :
    Registered V (({} : Directory).run V calls) :=
  run_induction V .empty (fun _ _ h => (perform_did _ _).registered hV h) calls

/-! ### What becomes of an account -/

/-- An account stays, with its id and its email; only `setDisabled` disables it. -/
theorem Did.account (hV : Function.Injective V.uuid) (h : Registered V d)
    (did : Did V c d a d') {id : UserId} {user : UserRecord} (hu : d.getUser id = some user) :
    ∃ user', d'.getUser id = some user' ∧ user'.email = user.email ∧
      (user'.disabled = user.disabled ∨ ∃ b, c.op = .setDisabled id b ∧ user'.disabled = b) := by
  have same : ∀ d₁ : Directory, d₁.getUser id = d.getUser id →
      ∃ user', d₁.getUser id = some user' ∧ user'.email = user.email ∧
        (user'.disabled = user.disabled ∨
          ∃ b, c.op = .setDisabled id b ∧ user'.disabled = b) :=
    fun d₁ hd₁ => ⟨user, hd₁.trans hu, rfl, .inl rfl⟩
  -- the record of one account is put back changed, and every other stays
  have put : ∀ (i : UserId) (old new : UserRecord), d.getUser i = some old → new.id = old.id →
      new.email = old.email →
      (new.disabled = old.disabled ∨ ∃ b, c.op = .setDisabled i b ∧ new.disabled = b) →
      ∃ user', (d.putUser new).getUser id = some user' ∧ user'.email = user.email ∧
        (user'.disabled = user.disabled ∨
          ∃ b, c.op = .setDisabled id b ∧ user'.disabled = b) := by
    intro i old new hold hid hmail hdis
    have hkey : new.id = i := hid.trans (h.keyed i old hold)
    subst hkey
    by_cases hi : id = new.id
    · subst hi
      rw [hu] at hold
      cases hold
      exact ⟨new, getUser_putUser _, hmail, hdis⟩
    · exact ⟨user, (getUser_putUser_ne hi).trans hu, rfl, .inl rfl⟩
  have fresh : ∀ (n : Nat) (new : UserRecord), new.id = "u_" ++ V.uuid n → d.drawn ≤ n →
      (d.putUser new).getUser id = d.getUser id := by
    intro n new hid hn
    refine getUser_putUser_ne fun hi => ?_
    rw [hi, hid, h.unused hV hn] at hu
    cases hu
  cases did with
  | nothing n locks compared => exact same _ rfl
  | created op new hfresh =>
    exact same _ (fresh d.drawn _ (by rw [hfresh]; rfl) (Nat.le_refl _))
  | minted => exact same _ rfl
  | accepted hash op found first unused live empty hfresh =>
    exact same _ (fresh (d.drawn + 1) _ (by rw [hfresh]; rfl) (Nat.le_succ _))
  | passworded hash locks op found unused live account enabled =>
    exact put _ _ _ account rfl rfl (.inl rfl)
  | loggedIn locks compared op account enabled =>
    exact put _ _ _ (h.userByEmail account).1 rfl rfl (.inl rfl)
  | roles op account => exact put _ _ _ account rfl rfl (.inl rfl)
  | disabled op account => exact put _ _ _ account rfl rfl (.inr ⟨true, op, rfl⟩)
  | enabled op account => exact put _ _ _ account rfl rfl (.inr ⟨false, op, rfl⟩)
  | reset op account => exact put _ _ _ account rfl rfl (.inl rfl)
  | loggedOut => exact same _ rfl
  | revoked => exact same _ rfl

theorem Did.drawn_le (did : Did V c d a d') : d.drawn ≤ d'.drawn := by
  cases did <;> simp <;> omega

theorem normaliseEmail_ana : normaliseEmail "ana@x" = "ana@x" := by
  apply String.toList_injective
  have hlower (s : String) : s.toLower = s.map Char.toLower := rfl
  simp only [normaliseEmail, trim, hlower, String.toList_map]
  decide

end Directory

end LocalSpace
