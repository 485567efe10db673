import Mathlib.Data.List.Induction
import LocalSpace.Requests

/-!
# Accounts, sessions, one-time links and lockouts

`identity.rs` over its tables of `store.rs`. A function that can fail writes nothing before it
fails, so each gives the directory it leaves only where it succeeds. Random bytes, the hashes
and the list of common passwords come from a `Vault`; times are milliseconds of a clock that
may be anything.
-/

namespace LocalSpace

/-- What the directory takes from outside: fresh uuids and tokens by the number of draws made
before, blake3 in hex, argon2id with its salt, and the list of common passwords. -/
structure Vault where
  uuid : Nat → String
  token : Nat → String
  blake3 : String → String
  hashPassword : Nat → String → Except String String
  /-- `decoy_hash`: a hash nothing matches. -/
  decoy : String
  verifyPassword : String → String → Bool
  isCommonPassword : String → Bool
  sessionTtlMs : Nat

/-- A vault whose hashes are the text itself. -/
@[grind =]
def Vault.plain : Vault where
  uuid n := String.ofList (List.replicate n 'u')
  token n := String.ofList (List.replicate n 't')
  blake3 := id
  hashPassword _ password := .ok password
  decoy := ""
  verifyPassword password phc := password == phc
  isCommonPassword _ := false
  sessionTtlMs := 8 * 60 * 60 * 1000

theorem Vault.plain_uuid_injective : Function.Injective Vault.plain.uuid := by
  intro m n h
  have hlist : List.replicate m 'u' = List.replicate n 'u' := String.ofList_injective h
  simpa using congrArg List.length hlist

theorem Vault.plain_token_injective : Function.Injective Vault.plain.token := by
  intro m n h
  have hlist : List.replicate m 't' = List.replicate n 't' := String.ofList_injective h
  simpa using congrArg List.length hlist

theorem Vault.plain_blake3_injective : Function.Injective Vault.plain.blake3 :=
  Function.injective_id

/-- Put back each row that `change` gives a new value for: the loops that end a user's
sessions and kill the earlier links. -/
def Table.rewrite {K W : Type} [DecidableEq K] (t : Table K W) (change : W → Option W) :
    Table K W :=
  t.entries.foldl
    (fun t row => match change row.2 with
      | some w => AList.insert row.1 w t
      | none => t) t

namespace Directory

structure UserRecord where
  id : UserId
  email : String
  name : String
  roles : List UserRole
  provider : String
  passwordHash : Option String
  disabled : Bool
  createdMs : Nat
  lastLoginMs : Option Nat
  passwordSetMs : Option Nat

structure SessionRecord where
  user : UserId
  createdMs : Nat
  expiresMs : Nat
  ip : String
  userAgent : String
  revoked : Bool

structure InviteRecord where
  /-- The account the link is for; empty for the first administrator's. -/
  user : UserId
  createdMs : Nat
  expiresMs : Nat
  usedMs : Option Nat
  firstAdmin : Bool

structure LockRecord where
  failures : Nat := 0
  windowStartMs : Nat := 0
  lockedUntilMs : Nat := 0
  rounds : Nat := 0

inductive InviteStatus where
  | dead
  | forUser (user : UserRecord)
  | firstAdmin

inductive LoginFailure where
  | noSuchUser
  | wrongPassword
  | disabled
  | noPasswordYet
  | accountLocked (untilMs : Nat)
  | addressLocked (untilMs : Nat)
  deriving DecidableEq

structure SignedIn where
  user : UserRecord
  session : String
  expiresMs : Nat

def minPasswordChars : Nat := 12
def maxPasswordChars : Nat := 256
def inviteTtlMs : Nat := 24 * 60 * 60 * 1000
def accountFailures : Nat := 5
def accountLockMs : Nat := 15 * 60 * 1000
def ipFailures : Nat := 30
def ipWindowMs : Nat := 15 * 60 * 1000
def ipLockMs : Nat := 15 * 60 * 1000

end Directory

/-- The tables, the number of random draws made so far, and the stored password hashes a
password was compared with, the latest first. -/
structure Directory where
  users : Table UserId Directory.UserRecord := ∅
  emails : Table String UserId := ∅
  sessions : Table String Directory.SessionRecord := ∅
  invites : Table String Directory.InviteRecord := ∅
  locks : Table String Directory.LockRecord := ∅
  drawn : Nat := 0
  compared : List String := []

namespace Directory

variable (V : Vault)

/-! ### The tables -/

def putUser (d : Directory) (user : UserRecord) : Directory :=
  { d with users := d.users.insert user.id user, emails := d.emails.insert user.email user.id }

def getUser (d : Directory) (id : UserId) : Option UserRecord :=
  d.users.lookup id

def userByEmail (d : Directory) (email : String) : Option UserRecord :=
  (d.emails.lookup email).bind d.getUser

def putSession (d : Directory) (key : String) (session : SessionRecord) : Directory :=
  { d with sessions := d.sessions.insert key session }

@[grind =]
def getSession (d : Directory) (key : String) : Option SessionRecord :=
  d.sessions.lookup key

def putInvite (d : Directory) (key : String) (invite : InviteRecord) : Directory :=
  { d with invites := d.invites.insert key invite }

@[grind =]
def getInvite (d : Directory) (key : String) : Option InviteRecord :=
  d.invites.lookup key

@[grind =]
def getLock (d : Directory) (key : String) : Option LockRecord :=
  d.locks.lookup key

def putLock (d : Directory) (key : String) (lock : LockRecord) : Directory :=
  { d with locks := d.locks.insert key lock }

def clearLock (d : Directory) (key : String) : Directory :=
  { d with locks := d.locks.erase key }

/-- One more random draw. -/
def draw (d : Directory) : Directory :=
  { d with drawn := d.drawn + 1 }

/-- `verify_password`, remembering what it was compared with. -/
def verify (d : Directory) (password phc : String) : Bool × Directory :=
  (V.verifyPassword password phc, { d with compared := phc :: d.compared })

def keyOf (token : String) : String :=
  V.blake3 token

def freshUser (n : Nat) (email name : String) (roles : List UserRole) (nowMs : Nat) :
    UserRecord where
  id := "u_" ++ V.uuid n
  email := email
  name := trim name
  roles := roles
  provider := "local"
  passwordHash := none
  disabled := false
  createdMs := nowMs
  lastLoginMs := none
  passwordSetMs := none

def passwordAcceptable (password : String) : Except String Unit :=
  let length := password.length
  if length < minPasswordChars then
    .error s!"Use at least {minPasswordChars} characters for your password."
  else if length > maxPasswordChars then
    .error s!"Use at most {maxPasswordChars} characters for your password."
  else if V.isCommonPassword password then
    .error "That password is too common. Choose another one."
  else .ok ()

/-- Whether no account exists. -/
def isEmpty (d : Directory) : Bool :=
  d.users.entries.isEmpty

/-! ### Locks -/

def accountKey (id : UserId) : String := "account:" ++ id

def ipKey (ip : String) : String := "ip:" ++ ip

/-- An admin clears an account's lock. -/
def unlock (d : Directory) (id : UserId) : Directory :=
  d.clearLock (accountKey id)

def lockedUntil (d : Directory) (key : String) (nowMs : Nat) : Option Nat :=
  ((d.getLock key).filter fun l => l.lockedUntilMs > nowMs).map LockRecord.lockedUntilMs

def accountLockedUntil (d : Directory) (id : UserId) (nowMs : Nat) : Option Nat :=
  d.lockedUntil (accountKey id) nowMs

def addressLockedUntil (d : Directory) (ip : String) (nowMs : Nat) : Option Nat :=
  if ip.isEmpty then none else d.lockedUntil (ipKey ip) nowMs

/-- One more failure from an address, in the window that began at the first. -/
def LockRecord.addressFailure (lock : LockRecord) (nowMs : Nat) : LockRecord :=
  let lock := if nowMs - lock.windowStartMs > ipWindowMs
    then { lock with windowStartMs := nowMs, failures := 0 } else lock
  let lock := { lock with failures := lock.failures + 1 }
  if lock.failures ≥ ipFailures then
    { failures := 0, windowStartMs := nowMs, lockedUntilMs := nowMs + ipLockMs,
      rounds := lock.rounds + 1 }
  else lock

def countAddressFailure (d : Directory) (ip : String) (nowMs : Nat) : Directory :=
  if ip.isEmpty then d
  else d.putLock (ipKey ip) (((d.getLock (ipKey ip)).getD {}).addressFailure nowMs)

/-- One more wrong password for an account: the fifth in a row locks it, for twice as long each
round. -/
def LockRecord.accountFailure (lock : LockRecord) (nowMs : Nat) : LockRecord :=
  let lock := { lock with failures := lock.failures + 1 }
  if lock.failures ≥ accountFailures then
    { lock with
      lockedUntilMs := nowMs + accountLockMs * 2 ^ min lock.rounds 10
      failures := 0
      rounds := lock.rounds + 1 }
  else lock

def countAccountFailure (d : Directory) (id : UserId) (nowMs : Nat) : Directory :=
  d.putLock (accountKey id) (((d.getLock (accountKey id)).getD {}).accountFailure nowMs)

/-! ### Sessions -/

def startSession (d : Directory) (user : UserRecord) (ip userAgent : String) (nowMs : Nat) :
    SignedIn × Directory :=
  let session := V.token d.drawn
  let expiresMs := nowMs + V.sessionTtlMs
  (⟨user, session, expiresMs⟩,
    d.draw.putSession (keyOf V session)
      { user := user.id, createdMs := nowMs, expiresMs := expiresMs, ip := ip
        userAgent := String.ofList (userAgent.toList.take 200), revoked := false })

/-- The user behind a session id, if it is live. -/
def session (d : Directory) (id : String) (nowMs : Nat) : Option (UserRecord × SessionRecord) :=
  match d.getSession (keyOf V id) with
  | none => none
  | some session =>
    if session.revoked ∨ session.expiresMs ≤ nowMs then none
    else match d.getUser session.user with
      | none => none
      | some user => if user.disabled then none else some (user, session)

def logout (d : Directory) (id : String) : Bool × Directory :=
  match d.getSession (keyOf V id) with
  | none => (false, d)
  | some session =>
    if session.revoked then (false, d)
    else (true, d.putSession (keyOf V id) { session with revoked := true })

def sessionsOf (d : Directory) (user : UserId) : List SessionRecord :=
  (d.sessions.entries.map fun row => row.2).filter fun s => s.user = user

/-- End every live session of a user; the number that were live. -/
def revokeSessions (d : Directory) (user : UserId) : Nat × Directory :=
  ((d.sessionsOf user).countP fun s => !s.revoked,
    { d with sessions := Table.rewrite d.sessions fun s =>
        if s.user = user ∧ s.revoked = false then some { s with revoked := true } else none })

/-! ### One-time links -/

def invite (d : Directory) (user : UserId) (nowMs : Nat) : String × Directory :=
  let token := V.token d.drawn
  (token, d.draw.putInvite (keyOf V token)
    { user := user, createdMs := nowMs, expiresMs := nowMs + inviteTtlMs, usedMs := none
      firstAdmin := false })

/-- The account a live token is for. -/
def inviteUser (d : Directory) (token : String) (nowMs : Nat) : Option UserRecord :=
  match d.getInvite (keyOf V token) with
  | none => none
  | some invite =>
    if invite.usedMs.isSome ∨ invite.expiresMs ≤ nowMs then none
    else (d.getUser invite.user).filter fun u => !u.disabled

def inviteStatus (d : Directory) (token : String) (nowMs : Nat) : InviteStatus :=
  match d.getInvite (keyOf V token) with
  | none => .dead
  | some invite =>
    if invite.usedMs.isSome ∨ invite.expiresMs ≤ nowMs then .dead
    else if invite.firstAdmin then if d.isEmpty then .firstAdmin else .dead
    else match (d.getUser invite.user).filter fun u => !u.disabled with
      | some user => .forUser user
      | none => .dead

def setPassword (d : Directory) (token password ip userAgent : String) (nowMs : Nat) :
    Except String (SignedIn × Directory) :=
  match d.inviteUser V token nowMs with
  | none =>
    .error "This link has been used or has expired. Ask your administrator for a new one."
  | some user => do
    passwordAcceptable V password
    let hash ← V.hashPassword d.drawn password
    let d := d.draw
    match d.getInvite (keyOf V token) with
    | none => .error "This link has been used or has expired."
    | some invite =>
      let d := d.putInvite (keyOf V token) { invite with usedMs := some nowMs }
      let user := { user with
        passwordHash := some hash, passwordSetMs := some nowMs, lastLoginMs := some nowMs }
      let d := (d.putUser user).unlock user.id
      .ok (d.startSession V user ip userAgent nowMs)

/-! ### Accounts -/

def createUser (d : Directory) (email name : String) (roles : List UserRole) (nowMs : Nat) :
    Except String ((UserRecord × String) × Directory) :=
  let email := normaliseEmail email
  if email = "" ∨ !email.toList.contains '@' then .error s!"`{email}` is not an email address"
  else if (d.userByEmail email).isSome then .error s!"there is already an account for {email}"
  else
    let user := freshUser V d.drawn email name roles nowMs
    let (token, d) := (d.draw.putUser user).invite V user.id nowMs
    .ok ((user, token), d)

/-- The first administrator's one-time link, while there are no accounts. Minting it again
kills the earlier one. -/
def bootstrapInvite (d : Directory) (nowMs : Nat) : Except String (String × Directory) :=
  if !d.isEmpty then
    .error "this server has accounts already; an administrator makes the next one"
  else
    let d := { d with invites := Table.rewrite d.invites fun i =>
      if i.firstAdmin ∧ i.usedMs = none then some { i with usedMs := some nowMs } else none }
    let token := V.token d.drawn
    .ok (token, d.draw.putInvite (keyOf V token)
      { user := "", createdMs := nowMs, expiresMs := nowMs + inviteTtlMs, usedMs := none
        firstAdmin := true })

/-- Spend the first administrator's link: the account is made and signed in. -/
def acceptFirstAdmin (d : Directory) (token email name password ip userAgent : String)
    (nowMs : Nat) : Except String (SignedIn × Directory) :=
  let key := keyOf V token
  match (d.getInvite key).filter fun i =>
      i.firstAdmin ∧ i.usedMs = none ∧ i.expiresMs > nowMs with
  | none => .error "This link has been used or has expired. Restart the service for a new one."
  | some invite =>
    if !d.isEmpty then .error "This server has an administrator already."
    else
      let email := normaliseEmail email
      if email = "" ∨ !email.toList.contains '@' then .error "Give your work email address."
      else
        let name := trim name
        if name = "" then .error "Give your name."
        else do
          passwordAcceptable V password
          let hash ← V.hashPassword d.drawn password
          let d := d.draw
          let user := { freshUser V d.drawn email name [.admin] nowMs with
            passwordHash := some hash, passwordSetMs := some nowMs, lastLoginMs := some nowMs }
          let d := d.draw.putUser user
          let d := d.putInvite key { invite with usedMs := some nowMs, user := user.id }
          .ok (d.startSession V user ip userAgent nowMs)

/-- A role change ends every live session. -/
def setRoles (d : Directory) (id : UserId) (roles : List UserRole) :
    Except String (UserRecord × Directory) :=
  match d.getUser id with
  | none => .error "no such user"
  | some user =>
    let user := { user with roles := roles }
    .ok (user, ((d.putUser user).revokeSessions id).2)

def setDisabled (d : Directory) (id : UserId) (disabled : Bool) :
    Except String (UserRecord × Directory) :=
  match d.getUser id with
  | none => .error "no such user"
  | some user =>
    let user := { user with disabled := disabled }
    let d := d.putUser user
    .ok (user, if disabled then (d.revokeSessions id).2 else d)

/-- A reset forgets the password, ends every session, and gives a new one-time link. -/
def resetPassword (d : Directory) (id : UserId) (nowMs : Nat) :
    Except String (String × Directory) :=
  match d.getUser id with
  | none => .error "no such user"
  | some user =>
    let d := d.putUser { user with passwordHash := none, passwordSetMs := none }
    .ok ((d.revokeSessions id).2.invite V id nowMs)

/-! ### Signing in -/

/-- What a password comes to on an account that is not locked. -/
def checkPassword (d : Directory) (user : UserRecord) (password : String) :
    Except LoginFailure Unit × Directory :=
  match user.passwordHash, user.disabled with
  | _, true => (.error .disabled, (d.verify V password V.decoy).2)
  | none, _ => (.error .noPasswordYet, (d.verify V password V.decoy).2)
  | some hash, false =>
    let (fits, d) := d.verify V password hash
    (if fits then .ok () else .error .wrongPassword, d)

@[grind =]
def login (d : Directory) (email password ip userAgent : String) (nowMs : Nat) :
    Except LoginFailure SignedIn × Directory :=
  match d.addressLockedUntil ip nowMs with
  | some untilMs => (.error (.addressLocked untilMs), d)
  | none =>
    match d.userByEmail (normaliseEmail email) with
    | none =>
      (.error .noSuchUser, (d.verify V password V.decoy).2.countAddressFailure ip nowMs)
    | some user =>
      match d.accountLockedUntil user.id nowMs with
      | some untilMs => (.error (.accountLocked untilMs), d.countAddressFailure ip nowMs)
      | none =>
        match d.checkPassword V user password with
        | (.ok (), d) =>
          let user := { user with lastLoginMs := some nowMs }
          let (signed, d) := ((d.unlock user.id).putUser user).startSession V user ip userAgent nowMs
          (.ok signed, d)
        | (.error failure, d) =>
          let d := d.countAddressFailure ip nowMs
          (.error failure,
            if failure = .wrongPassword then d.countAccountFailure user.id nowMs else d)

/-! ### What the directory is asked -/

inductive Op where
  | createUser (email name : String) (roles : List UserRole)
  | bootstrapInvite
  | acceptFirstAdmin (token email name password ip userAgent : String)
  | setRoles (id : UserId) (roles : List UserRole)
  | setDisabled (id : UserId) (disabled : Bool)
  | resetPassword (id : UserId)
  | unlock (id : UserId)
  | setPassword (token password ip userAgent : String)
  | login (email password ip userAgent : String)
  | logout (id : String)
  | revokeSessions (user : UserId)
  /-- The directory is in the database alone, and comes back as it was. -/
  | restart

/-- An operation, and the clock when it came. -/
structure Call where
  op : Op
  nowMs : Nat

inductive Answer where
  | created (user : UserRecord) (token : String)
  | link (token : String)
  | signedIn (signed : SignedIn)
  | changed (user : UserRecord)
  | ended (sessions : Nat)
  | loggedOut (live : Bool)
  | done
  | refused (failure : LoginFailure)
  | failed (error : String)

/-- The answer of an operation that succeeded, and the directory it left; the directory as it
was where it failed. -/
@[grind =]
def answered {α : Type} (d : Directory) (answer : α → Answer) :
    Except String (α × Directory) → Answer × Directory
  | .ok (a, d) => (answer a, d)
  | .error e => (.failed e, d)

@[grind =]
def perform (d : Directory) (c : Call) : Answer × Directory :=
  match c.op with
  | .createUser email name roles =>
    d.answered (fun (user, token) => .created user token) (d.createUser V email name roles c.nowMs)
  | .bootstrapInvite => d.answered .link (d.bootstrapInvite V c.nowMs)
  | .acceptFirstAdmin token email name password ip userAgent =>
    d.answered .signedIn (d.acceptFirstAdmin V token email name password ip userAgent c.nowMs)
  | .setRoles id roles => d.answered .changed (d.setRoles id roles)
  | .setDisabled id disabled => d.answered .changed (d.setDisabled id disabled)
  | .resetPassword id => d.answered .link (d.resetPassword V id c.nowMs)
  | .unlock id => (.done, d.unlock id)
  | .setPassword token password ip userAgent =>
    d.answered .signedIn (d.setPassword V token password ip userAgent c.nowMs)
  | .login email password ip userAgent =>
    match d.login V email password ip userAgent c.nowMs with
    | (.ok signed, d) => (.signedIn signed, d)
    | (.error failure, d) => (.refused failure, d)
  | .logout id => let (live, d) := d.logout V id; (.loggedOut live, d)
  | .revokeSessions user => let (n, d) := d.revokeSessions user; (.ended n, d)
  | .restart => (.done, d)

@[grind =]
def after (d : Directory) (c : Call) : Directory :=
  (d.perform V c).2

/-- The directory after a list of calls. -/
@[grind =]
def run (d : Directory) (calls : List Call) : Directory :=
  calls.foldl (after V) d

@[simp] theorem run_nil (d : Directory) : d.run V [] = d := rfl

@[simp] theorem run_concat (d : Directory) (calls : List Call) (c : Call) :
    d.run V (calls ++ [c]) = (d.run V calls).after V c := by
  simp only [run, List.foldl_append, List.foldl_cons, List.foldl_nil]

theorem run_append (d : Directory) (calls more : List Call) :
    d.run V (calls ++ more) = (d.run V calls).run V more := by
  simp only [run, List.foldl_append]

/-- **Induction along a run** from an empty database. -/
theorem run_induction {I : Directory → Prop} (start : I {})
    (step : ∀ d c, I d → I (d.after V c)) (calls : List Call) : I (({} : Directory).run V calls) := by
  induction calls using List.reverseRecOn with
  | nil => exact start
  | append_singleton calls c ih =>
    rw [run_concat]
    exact step _ _ ih

end Directory

end LocalSpace
