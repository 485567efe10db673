import LocalSpace.Accounts
import LocalSpace.Library.Runs

/-!
# One-time links

A link is a record under its token's hash, with no index by account. What an unspent record
can have come from is `Did.unspent`; over a run it gives which first administrator's link is
the live one, and which links of an account can still set its password.
-/

namespace LocalSpace

namespace Directory

variable {V : Vault} {d d' : Directory} {c : Call} {a : Answer}

/-- The answers of a list of calls, each with its call. -/
@[grind =]
def answers (V : Vault) : Directory → List Call → List (Call × Answer)
  | _, [] => []
  | d, c :: rest => (c, (d.perform V c).1) :: answers V (d.after V c) rest

theorem answers_concat (d : Directory) (calls : List Call) (c : Call) :
    answers V d (calls ++ [c]) = answers V d calls ++ [(c, ((d.run V calls).perform V c).1)] := by
  induction calls generalizing d with
  | nil => rfl
  | cons c' rest ih =>
    rw [List.cons_append, answers, ih, answers]
    rfl

/-! ### Where a record of a link comes from -/

@[simp] theorem getInvite_startSession (user : UserRecord) (ip userAgent : String) (nowMs : Nat)
    (key : String) : (d.startSession V user ip userAgent nowMs).2.getInvite key = d.getInvite key :=
  rfl
@[simp] theorem getInvite_putUser (user : UserRecord) (key : String) :
    (d.putUser user).getInvite key = d.getInvite key := rfl

@[simp] theorem getInvite_putInvite (key : String) (link : InviteRecord) :
    (d.putInvite key link).getInvite key = some link :=
  AList.lookup_insert _

theorem getInvite_putInvite_ne {key key' : String} {link : InviteRecord} (h : key' ≠ key) :
    (d.putInvite key link).getInvite key' = d.getInvite key' :=
  AList.lookup_insert_ne h

theorem getInvite_invite (user : UserId) (nowMs : Nat) (key : String) :
    (d.invite V user nowMs).2.getInvite key =
      if key = keyOf V (V.token d.drawn) then
        some { user := user, createdMs := nowMs, expiresMs := nowMs + inviteTtlMs, usedMs := none
               firstAdmin := false }
      else d.getInvite key := by
  split
  · rename_i hkey
    subst hkey
    exact getInvite_putInvite _ _
  · rename_i hkey
    exact getInvite_putInvite_ne hkey

/-- A link for an account, just issued. -/
def userLink (user : UserId) (nowMs : Nat) : InviteRecord where
  user := user
  createdMs := nowMs
  expiresMs := nowMs + inviteTtlMs
  usedMs := none
  firstAdmin := false

/-- What an unspent record of a link was before a call. -/
inductive Unspent (V : Vault) (d : Directory) (c : Call) (a : Answer) (key : String)
    (link : InviteRecord) : Prop
  | old (stays : d.getInvite key = some link)
      (replaced : c.op = .bootstrapInvite → a.handsOut = true → link.firstAdmin = false)
      (spent : ∀ token password ip userAgent signed,
        c.op = .setPassword token password ip userAgent → a = .signedIn signed →
          key ≠ keyOf V token)
  | minted (op : c.op = .bootstrapInvite) (answer : a = .link (V.token d.drawn))
      (hkey : key = keyOf V (V.token d.drawn)) (nobody : link.user = "")
      (first : link.firstAdmin = true)
  | created {user : UserRecord} (n : Nat) (hn : n = d.drawn + 1)
      (answer : a = .created user (V.token n)) (hkey : key = keyOf V (V.token n))
      (record : link = userLink user.id c.nowMs) (new : user.id = "u_" ++ V.uuid d.drawn)
  | reset {id : UserId} (op : c.op = .resetPassword id) (answer : a = .link (V.token d.drawn))
      (hkey : key = keyOf V (V.token d.drawn)) (record : link = userLink id c.nowMs)

theorem Did.unspent (did : Did V c d a d') {key : String} {link : InviteRecord}
    (hlink : d'.getInvite key = some link) (hun : link.usedMs = none) :
    Unspent V d c a key link := by
  have other : d.getInvite key = some link → c.op ≠ .bootstrapInvite →
      (∀ token password ip userAgent, c.op ≠ .setPassword token password ip userAgent) →
      Unspent V d c a key link :=
    fun h hop hset => .old h (fun h => absurd h hop) fun t p i u _ h _ => absurd h (hset t p i u)
  cases did with
  | nothing n locks compared silent =>
    refine .old hlink (fun _ h => ?_) fun _ _ _ _ _ _ h => ?_
    · rw [silent] at h
      cases h
    · rw [h] at silent
      cases silent
  | created op new fresh =>
    rename_i user
    rw [getInvite_invite] at hlink
    split at hlink
    · rename_i hkey
      cases hlink
      refine .created (d.drawn + 1) rfl rfl hkey rfl ?_
      rw [fresh]
      rfl
    · exact other hlink (by rw [op]; simp) (by rw [op]; simp)
  | minted op empty =>
    by_cases hkey : key = keyOf V (V.token d.drawn)
    · subst hkey
      have hrow := AList.lookup_insert (Table.rewrite d.invites fun i =>
        if i.firstAdmin ∧ i.usedMs = none then some { i with usedMs := some c.nowMs } else none)
        (a := keyOf V (V.token d.drawn))
        (b := ({ user := "", createdMs := c.nowMs, expiresMs := c.nowMs + inviteTtlMs
                 usedMs := none, firstAdmin := true } : InviteRecord))
      have hsome := hlink.symm.trans hrow
      cases hsome
      exact .minted op rfl rfl rfl rfl
    · have hrow : (Table.rewrite d.invites fun i =>
          if i.firstAdmin ∧ i.usedMs = none then some { i with usedMs := some c.nowMs }
          else none).lookup key = some link := (AList.lookup_insert_ne hkey).symm.trans hlink
      rw [Table.lookup_rewrite] at hrow
      obtain ⟨old, hold, hnew⟩ := Option.map_eq_some_iff.mp hrow
      split at hnew
      · -- killed by the newer link
        rw [← hnew] at hun
        cases hun
      · rename_i hlive
        simp only [Option.getD_none] at hnew
        subst hnew
        refine .old hold (fun _ _ => ?_) (by rw [op]; simp)
        by_contra hfirst
        exact hlive ⟨by simpa using hfirst, hun⟩
  | accepted hash op found first unused live empty fresh =>
    rename_i token _ _ _ _ _ _ _
    rw [getInvite_startSession] at hlink
    by_cases hkey : key = keyOf V token
    · rw [hkey, getInvite_putInvite] at hlink
      cases hlink
      cases hun
    · rw [getInvite_putInvite_ne hkey] at hlink
      exact other hlink (by rw [op]; simp) (by rw [op]; simp)
  | passworded hash locks op found unused live account enabled =>
    rename_i token _ _ _ _ _
    rw [getInvite_startSession, getInvite_putUser] at hlink
    by_cases hkey : key = keyOf V token
    · rw [hkey, getInvite_putInvite] at hlink
      cases hlink
      cases hun
    · rw [getInvite_putInvite_ne hkey] at hlink
      refine .old hlink (by rw [op]; simp) fun t _ _ _ _ hop _ => ?_
      rw [op] at hop
      cases hop
      exact hkey
  | loggedIn locks compared op account enabled =>
    exact other hlink (by rw [op]; simp) (by rw [op]; simp)
  | roles op account => exact other hlink (by rw [op]; simp) (by rw [op]; simp)
  | disabled op account => exact other hlink (by rw [op]; simp) (by rw [op]; simp)
  | enabled op account => exact other hlink (by rw [op]; simp) (by rw [op]; simp)
  | reset op account =>
    rw [getInvite_invite] at hlink
    split at hlink
    · rename_i hkey
      cases hlink
      exact .reset op rfl hkey rfl
    · exact other hlink (by rw [op]; simp) (by rw [op]; simp)
  | loggedOut op found live => exact other hlink (by rw [op]; simp) (by rw [op]; simp)
  | revoked op => exact other hlink (by rw [op]; simp) (by rw [op]; simp)

/-! ### The keys of links -/

/-- Every link is under the hash of a token drawn before. -/
def Keyed (V : Vault) (d : Directory) : Prop :=
  ∀ key link, d.getInvite key = some link → ∃ n < d.drawn, key = keyOf V (V.token n)

theorem Keyed.putInvite {d : Directory} {n : Nat} (h : Keyed V d) (hn : n < d.drawn)
    (link : InviteRecord) : Keyed V (d.putInvite (keyOf V (V.token n)) link) := by
  intro key link' hlink
  by_cases hkey : key = keyOf V (V.token n)
  · exact ⟨n, hn, hkey⟩
  · rw [getInvite_putInvite_ne hkey] at hlink
    exact h key link' hlink

/-- Where the links are the same, or some of them changed under their own keys. -/
theorem Keyed.of_eq (h : Keyed V d)
    (hlinks : ∀ key link, d'.getInvite key = some link → (d.getInvite key).isSome)
    (hd : d.drawn ≤ d'.drawn) : Keyed V d' := by
  intro key link hlink
  obtain ⟨old, hold⟩ := Option.isSome_iff_exists.mp (hlinks key link hlink)
  obtain ⟨n, hn, hkey⟩ := h key old hold
  exact ⟨n, by omega, hkey⟩

theorem Did.keyed (did : Did V c d a d') (h : Keyed V d) : Keyed V d' := by
  have same : ∀ d₁ : Directory, d₁.invites = d.invites → d.drawn ≤ d₁.drawn → Keyed V d₁ :=
    fun d₁ hd₁ hdrawn => h.of_eq (fun key link hlink => by
      rw [getInvite, hd₁] at hlink
      exact Option.isSome_of_mem hlink) hdrawn
  have spent : ∀ (d₁ : Directory) (token : String) (old link : InviteRecord),
      d₁.invites = d.invites → d.drawn ≤ d₁.drawn → d.getInvite (keyOf V token) = some old →
      Keyed V (d₁.putInvite (keyOf V token) link) := by
    intro d₁ token old link hd₁ hdrawn hold
    obtain ⟨n, hn, hkey⟩ := h _ _ hold
    rw [hkey]
    exact (same d₁ hd₁ hdrawn).putInvite (by omega) link
  cases did with
  | nothing n locks compared => exact same _ rfl (by simp)
  | created op new fresh =>
    exact (same (d.draw.putUser _).draw rfl (by simp; omega)).putInvite (by simp) _
  | minted op empty =>
    refine Keyed.putInvite (d := { d with
      drawn := d.drawn + 1
      invites := Table.rewrite d.invites fun i =>
        if i.firstAdmin ∧ i.usedMs = none then some { i with usedMs := some c.nowMs } else none })
      (h.of_eq (fun key link hlink => ?_) (by simp)) (by simp) _
    simp only [getInvite, Table.lookup_rewrite] at hlink
    obtain ⟨old, hold, _⟩ := Option.map_eq_some_iff.mp hlink
    exact Option.isSome_of_mem hold
  | accepted hash op found first unused live empty fresh =>
    exact (spent (d.draw.draw.putUser _) _ _ _ rfl (by simp; omega) found).of_eq
      (fun _ _ hlink => Option.isSome_of_mem hlink) (by simp)
  | passworded hash locks op found unused live account enabled =>
    exact (spent { d with drawn := d.drawn + 1, locks := locks } _ _ _ rfl (by simp) found).of_eq
      (fun _ _ hlink => Option.isSome_of_mem hlink) (by simp)
  | loggedIn locks compared op account enabled => exact same _ rfl (by simp)
  | roles op account => exact same _ rfl (by simp)
  | disabled op account => exact same _ rfl (by simp)
  | enabled op account => exact same _ rfl (by simp)
  | reset op account =>
    exact (same (((d.putUser _).revokeSessions _).2).draw rfl (by simp)).putInvite (by simp) _
  | loggedOut op found live => exact same _ rfl (by simp)
  | revoked op => exact same _ rfl (by simp)

/-- The hashes of two draws are different. -/
theorem keyOf_token_ne (hblake : Function.Injective V.blake3)
    (htoken : Function.Injective V.token) {m n : Nat} (h : m ≠ n) :
    keyOf V (V.token m) ≠ keyOf V (V.token n) :=
  fun heq => h (htoken (hblake heq))

/-! ### The first administrator's link -/

/-- The links `bootstrapInvite` gave, in order. -/
def mintedLinks (V : Vault) (calls : List Call) : List String :=
  (answers V {} calls).filterMap fun ca => match ca.1.op, ca.2 with
    | .bootstrapInvite, .link token => some token
    | _, _ => none

def isFirstAdmin (ca : Call × Answer) : Bool :=
  match ca.1.op, ca.2 with
  | .acceptFirstAdmin .., .signedIn _ => true
  | _, _ => false

/-- How many first administrators a list of calls made by a link. -/
def firstAdmins (V : Vault) (calls : List Call) : Nat :=
  (answers V {} calls).countP isFirstAdmin

theorem mintedLinks_minted (calls : List Call) {nowMs : Nat} {token : String}
    (h : ((({} : Directory).run V calls).perform V ⟨.bootstrapInvite, nowMs⟩).1 = .link token) :
    mintedLinks V (calls ++ [⟨.bootstrapInvite, nowMs⟩]) = mintedLinks V calls ++ [token] := by
  simp only [mintedLinks, answers_concat, List.filterMap_append, List.filterMap_cons, h,
    List.filterMap_nil]

theorem mintedLinks_other (calls : List Call)
    (h : c.op = .bootstrapInvite →
      ((({} : Directory).run V calls).perform V c).1.handsOut = false) :
    mintedLinks V (calls ++ [c]) = mintedLinks V calls := by
  have hnone : (match c.op, ((({} : Directory).run V calls).perform V c).1 with
      | .bootstrapInvite, .link token => some token
      | _, _ => none) = none := by
    split
    · rename_i hop ha
      have := h hop
      rw [ha] at this
      cases this
    · rfl
  simp only [mintedLinks, answers_concat, List.filterMap_append, List.filterMap_cons, hnone,
    List.filterMap_nil, List.append_nil]

/-- An unspent first administrator's link is the newest minted. -/
theorem newest_link (calls : List Call) {key : String} {link : InviteRecord}
    (hlink : (({} : Directory).run V calls).getInvite key = some link)
    (hun : link.usedMs = none) (hfirst : link.firstAdmin = true) :
    ∃ token, (mintedLinks V calls).getLast? = some token ∧ key = keyOf V token := by
  induction calls using List.reverseRecOn generalizing key link with
  | nil => simp [getInvite] at hlink
  | append_singleton calls c ih =>
    rw [run_concat] at hlink
    cases (perform_did _ c).unspent hlink hun with
    | old stays replaced spent =>
      rw [mintedLinks_other calls]
      · exact ih stays hun hfirst
      · intro hop
        by_contra ha
        rw [replaced hop (by simpa using ha)] at hfirst
        cases hfirst
    | minted op answer hkey nobody first =>
      obtain ⟨op', nowMs⟩ := c
      obtain rfl : op' = .bootstrapInvite := op
      exact ⟨_, by rw [mintedLinks_minted calls answer, List.getLast?_concat], hkey⟩
    | created n hn answer hkey record new =>
      rw [record] at hfirst
      cases hfirst
    | reset op answer hkey record =>
      rw [record] at hfirst
      cases hfirst

theorem inviteStatus_firstAdmin {token : String} {nowMs : Nat}
    (h : d.inviteStatus V token nowMs = .firstAdmin) :
    (∃ link, d.getInvite (keyOf V token) = some link ∧ link.usedMs = none ∧
      link.firstAdmin = true) ∧ d.isEmpty = true := by
  simp only [inviteStatus] at h
  split at h
  · cases h
  · rename_i link hlink
    split at h
    · cases h
    · rename_i hlive
      simp only [not_or, Bool.not_eq_true, Option.isSome_eq_false_iff,
        Option.isNone_iff_eq_none] at hlive
      split at h
      · rename_i hfirst
        split at h
        · rename_i hempty
          exact ⟨⟨link, hlink, hlive.1, hfirst⟩, hempty⟩
        · cases h
      · split at h <;> cases h

/-- Accepting the first administrator's link takes an empty directory and leaves an account. -/
theorem accepted_isEmpty {token email name password ip userAgent : String} {signed : SignedIn}
    (op : c.op = .acceptFirstAdmin token email name password ip userAgent)
    (h : (d.perform V c).1 = .signedIn signed) :
    d.isEmpty = true ∧ (d.after V c).isEmpty = false ∧
      d.inviteStatus V token c.nowMs = .firstAdmin := by
  have did := perform_did (V := V) d c
  have hafter : (d.perform V c).2 = d.after V c := rfl
  rw [hafter, h] at did
  generalize d.after V c = d' at did ⊢
  cases did with
  | nothing n locks compared silent => cases silent
  | accepted hash op' found first unused live empty fresh =>
    rw [op] at op'
    cases op'
    refine ⟨empty, ?_, ?_⟩
    · rw [Bool.eq_false_iff]
      intro hempty
      have hget := isEmpty_iff.mp hempty (freshUser V (d.drawn + 1) (normaliseEmail email)
        (trim name) [.admin] c.nowMs).id
      rw [getUser_startSession, getUser_putInvite, fresh] at hget
      have hput := getUser_putUser (d := d.draw.draw) ((freshUser V (d.drawn + 1)
        (normaliseEmail email) (trim name) [.admin] c.nowMs).withPassword hash c.nowMs)
      rw [show ((freshUser V (d.drawn + 1) (normaliseEmail email) (trim name) [.admin]
        c.nowMs).withPassword hash c.nowMs).id = (freshUser V (d.drawn + 1)
          (normaliseEmail email) (trim name) [.admin] c.nowMs).id from rfl, hget] at hput
      cases hput
    · simp only [inviteStatus, found, unused, first, empty]
      simp [Nat.not_le.mpr live]
  | passworded hash locks op' => rw [op] at op'; cases op'
  | loggedIn locks compared op' => rw [op] at op'; cases op'

theorem isEmpty_after (hV : Function.Injective V.uuid) (h : Registered V d)
    (hne : d.isEmpty = false) : (d.after V c).isEmpty = false := by
  rw [Bool.eq_false_iff] at hne ⊢
  intro hempty
  refine hne (isEmpty_iff.mpr fun id => ?_)
  cases hu : d.getUser id with
  | none => rfl
  | some user =>
    obtain ⟨user', hu', _⟩ := (perform_did d c).account hV h hu
    rw [show (d.perform V c).2 = d.after V c from rfl, isEmpty_iff.mp hempty id] at hu'
    cases hu'

theorem firstAdmins_le_one (hV : Function.Injective V.uuid) (calls : List Call) :
    firstAdmins V calls ≤ 1 ∧
      (firstAdmins V calls = 1 → (({} : Directory).run V calls).isEmpty = false) := by
  induction calls using List.reverseRecOn with
  | nil => simp [firstAdmins, answers]
  | append_singleton calls c ih =>
    obtain ⟨hle, hone⟩ := ih
    have hcount : firstAdmins V (calls ++ [c]) = firstAdmins V calls +
        if isFirstAdmin (c, ((({} : Directory).run V calls).perform V c).1) then 1 else 0 := by
      simp only [firstAdmins, answers_concat, List.countP_append, List.countP_singleton]
    rw [hcount, run_concat]
    split
    · rename_i hfirst
      simp only [isFirstAdmin] at hfirst
      split at hfirst
      · rename_i hop hsigned
        obtain ⟨hempty, hafter, _⟩ := accepted_isEmpty hop hsigned
        have hzero : firstAdmins V calls = 0 := by
          by_contra hne
          rw [hone (by omega)] at hempty
          cases hempty
        exact ⟨by omega, fun _ => hafter⟩
      · cases hfirst
    · exact ⟨by omega, fun h => isEmpty_after hV (registered_run hV calls) (hone (by omega))⟩

/-- **At most one first administrator is ever made by a link**: at any time at most one first
administrator's link is live, the newest minted, while no account exists; a link that is
accepted was live; and in a whole run at most one is. The emails of accounts are distinct and
lead to them. -/
theorem one_first_admin (huuid : Function.Injective V.uuid)
    (hblake : Function.Injective V.blake3) (calls : List Call) :
    let d := ({} : Directory).run V calls
    (∀ token nowMs, d.inviteStatus V token nowMs = .firstAdmin →
      (mintedLinks V calls).getLast? = some token ∧ ∀ id, d.getUser id = none) ∧
    (∀ token token' nowMs nowMs', d.inviteStatus V token nowMs = .firstAdmin →
      d.inviteStatus V token' nowMs' = .firstAdmin → token = token') ∧
    (∀ token email name password ip userAgent nowMs signed,
      (d.perform V ⟨.acceptFirstAdmin token email name password ip userAgent, nowMs⟩).1 =
        .signedIn signed → d.inviteStatus V token nowMs = .firstAdmin) ∧
    firstAdmins V calls ≤ 1 ∧
    (∀ id id' u u', d.getUser id = some u → d.getUser id' = some u' → u.email = u'.email →
      id = id') ∧
    (∀ id u, d.getUser id = some u → d.userByEmail u.email = some u) := by
  intro d
  have hreg : Registered V d := registered_run huuid calls
  have hnewest : ∀ token nowMs, d.inviteStatus V token nowMs = .firstAdmin →
      (mintedLinks V calls).getLast? = some token := by
    intro token nowMs h
    obtain ⟨⟨link, hlink, hun, hfirst⟩, _⟩ := inviteStatus_firstAdmin h
    obtain ⟨token', hlast, hkey⟩ := newest_link calls hlink hun hfirst
    rw [hlast, hblake hkey]
  refine ⟨fun token nowMs h => ⟨hnewest token nowMs h,
    isEmpty_iff.mp (inviteStatus_firstAdmin h).2⟩, fun token token' nowMs nowMs' h h' => ?_,
    fun _ _ _ _ _ _ _ _ h => (accepted_isEmpty rfl h).2.2, (firstAdmins_le_one huuid calls).1,
    fun id id' u u' hu hu' hmail => ?_, fun id u hu => ?_⟩
  · have hlast := hnewest token nowMs h
    rw [hnewest token' nowMs' h'] at hlast
    exact (Option.some.inj hlast).symm
  · have hrow := hreg.found id u hu
    rw [hmail, hreg.found id' u' hu'] at hrow
    exact (Option.some.inj hrow).symm
  · simp only [userByEmail, hreg.found id u hu, Option.bind_some, hu]

theorem one_first_admin_plain :
    firstAdmins .plain [⟨.bootstrapInvite, 5⟩, ⟨.bootstrapInvite, 7⟩,
      ⟨.acceptFirstAdmin "t" "ana@x" "Ana" "a long password" "" "", 9⟩] ≤ 1 :=
  (one_first_admin Vault.plain_uuid_injective Vault.plain_blake3_injective _).2.2.2.1

/-! ### The links of one account -/

/-- Every link for an account is used. -/
def Spent (d : Directory) (id : UserId) : Prop :=
  ∀ row ∈ d.invites.entries, row.2.user = id → row.2.usedMs ≠ none

instance (d : Directory) (id : UserId) : Decidable (d.Spent id) :=
  inferInstanceAs (Decidable (∀ row ∈ d.invites.entries, _))

theorem Spent.used {id : UserId} (h : d.Spent id) {key : String} {link : InviteRecord}
    (hlink : d.getInvite key = some link) (hid : link.user = id) : link.usedMs ≠ none :=
  h ⟨key, link⟩ ((List.mem_dlookup_iff d.invites.nodupKeys).mp hlink) hid

/-- A reset comes when every link for the account is used. -/
def ClearReset (d : Directory) (c : Call) : Prop :=
  match c.op with
  | .resetPassword id => d.Spent id
  | _ => True

/-- The directory, asked one thing after another. -/
@[grind =]
def system (V : Vault) : Library.System Directory Call where
  step := after V
  enabled _ _ := True

/-- An account has at most one unspent link, and a link's account is one that was drawn. -/
structure OneLink (V : Vault) (d : Directory) : Prop where
  registered : Registered V d
  keyed : Keyed V d
  drawn : ∀ key link, d.getInvite key = some link → link.usedMs = none → link.user ≠ "" →
    ∃ n < d.drawn, link.user = "u_" ++ V.uuid n
  one : ∀ key key' link link', d.getInvite key = some link → d.getInvite key' = some link' →
    link.usedMs = none → link'.usedMs = none → link.user = link'.user → link.user ≠ "" →
    key = key'

theorem OneLink.empty : OneLink V {} :=
  ⟨.empty, fun _ _ h => by simp [getInvite] at h, fun _ _ h => by simp [getInvite] at h,
    fun _ _ _ _ h => by simp [getInvite] at h⟩

theorem OneLink.step (huuid : Function.Injective V.uuid) (h : OneLink V d)
    (clear : d.ClearReset c) : OneLink V (d.after V c) := by
  have did := perform_did (V := V) d c
  refine ⟨did.registered huuid h.registered, did.keyed h.keyed, fun key link hlink hun hne => ?_,
    fun key key' link link' hlink hlink' hun hun' huser hne => ?_⟩
  · cases did.unspent hlink hun with
    | old stays =>
      obtain ⟨n, hn, hid⟩ := h.drawn key link stays hun hne
      exact ⟨n, lt_of_lt_of_le hn did.drawn_le, hid⟩
    | minted op answer hkey nobody => exact absurd nobody hne
    | created n hn answer hkey record new =>
      have hle : d.drawn + 1 ≤ (d.after V c).drawn := by
        have did' := did
        rw [answer, hn] at did'
        change Did V c d _ (d.after V c) at did'
        generalize d.after V c = d' at did' ⊢
        generalize V.token (d.drawn + 1) = token at did'
        cases did' with
        | nothing n locks compared silent => cases silent
        | created => simp
      exact ⟨d.drawn, hle, by rw [record]; exact new⟩
    | reset op answer hkey record =>
      have hu : ∃ user, d.getUser link.user = some user := by
        have did' := did
        rw [answer] at did'
        change Did V c d _ (d.after V c) at did'
        generalize d.after V c = d' at did'
        generalize V.token d.drawn = token at did'
        cases did' with
        | nothing n locks compared silent => cases silent
        | minted op' => rw [op] at op'; cases op'
        | reset op' account =>
          rw [op] at op'
          cases op'
          rw [record]
          exact ⟨_, account⟩
      obtain ⟨user, hu⟩ := hu
      obtain ⟨n, hn, hid⟩ := h.registered.drawn _ _ hu
      exact ⟨n, lt_of_lt_of_le hn did.drawn_le, hid⟩
  · -- an old unspent link of the account cannot stand beside a new one
    have new_alone : ∀ k l n, d.getInvite k = some l → l.usedMs = none → d.drawn ≤ n →
        l.user = "u_" ++ V.uuid n → False := by
      intro k l n hl hlun hn hid
      have hlne : l.user ≠ "" := by
        rw [hid]
        intro hnil
        simp at hnil
      obtain ⟨m, hm, hid'⟩ := h.drawn k l hl hlun hlne
      have hmn : m = n := huuid ((String.append_right_inj _).mp (hid'.symm.trans hid))
      omega
    have spent_alone : ∀ k l id, d.getInvite k = some l → l.usedMs = none →
        c.op = .resetPassword id → l.user = id → False := by
      intro k l id hl hlun op hid
      simp only [ClearReset, op] at clear
      exact clear.used hl hid hlun
    cases did.unspent hlink hun with
    | old stays =>
      cases did.unspent hlink' hun' with
      | old stays' => exact h.one _ _ _ _ stays stays' hun hun' huser hne
      | minted op answer hkey nobody => exact absurd (huser.trans nobody) hne
      | created n hn answer hkey record new =>
        exact (new_alone _ _ _ stays hun (Nat.le_refl _) (by rw [huser, record]; exact new)).elim
      | reset op answer hkey record =>
        exact (spent_alone _ _ _ stays hun op (by rw [huser, record]; rfl)).elim
    | minted op answer hkey nobody => exact absurd nobody hne
    | created n hn answer hkey record new =>
      cases did.unspent hlink' hun' with
      | old stays' =>
        exact (new_alone _ _ _ stays' hun' (Nat.le_refl _)
          (by rw [← huser, record]; exact new)).elim
      | minted op answer hkey nobody => exact absurd (huser.trans nobody) hne
      | created n' hn' answer' hkey' => rw [hkey, hkey', hn, hn']
      | reset op answer' => rw [answer] at answer'; cases answer'
    | reset op answer hkey record =>
      cases did.unspent hlink' hun' with
      | old stays' =>
        exact (spent_alone _ _ _ stays' hun' op (by rw [← huser, record]; rfl)).elim
      | minted op answer hkey nobody => exact absurd (huser.trans nobody) hne
      | created n' hn' answer' => rw [answer] at answer'; cases answer'
      | reset op' answer' hkey' => rw [hkey, hkey']

theorem OneLink.runs (huuid : Function.Injective V.uuid)
    (run : (system V).Runs ClearReset {} d) : OneLink V d :=
  run.invariant .empty fun _ _ h _ clear => h.step huuid clear

/-- An unspent first administrator's link is for nobody. -/
def NobodysLink (d : Directory) : Prop :=
  ∀ key link, d.getInvite key = some link → link.usedMs = none → link.firstAdmin = true →
    link.user = ""

theorem Did.nobodysLink (h : NobodysLink d) (did : Did V c d a d') : NobodysLink d' := by
  intro key link hlink hun hfirst
  cases did.unspent hlink hun with
  | old stays => exact h key link stays hun hfirst
  | minted op answer hkey nobody => exact nobody
  | created n hn answer hkey record =>
    rw [record] at hfirst
    cases hfirst
  | reset op answer hkey record =>
    rw [record] at hfirst
    cases hfirst

theorem inviteStatus_forUser {token : String} {nowMs : Nat} {user : UserRecord}
    (h : d.inviteStatus V token nowMs = .forUser user) :
    ∃ link, d.getInvite (keyOf V token) = some link ∧ link.usedMs = none ∧
      d.getUser link.user = some user := by
  simp only [inviteStatus] at h
  split at h
  · cases h
  · rename_i link hlink
    split at h
    · cases h
    · rename_i hlive
      simp only [not_or, Bool.not_eq_true, Option.isSome_eq_false_iff,
        Option.isNone_iff_eq_none] at hlive
      split at h
      · split at h <;> cases h
      · split at h
        · rename_i user' huser
          cases h
          exact ⟨link, hlink, hlive.1, (Option.filter_eq_some_iff.mp huser).1⟩
        · cases h

/-- A link that sets a password is unspent, and sets its own account's. -/
theorem setPassword_signed {token password ip userAgent : String} {signed : SignedIn}
    (op : c.op = .setPassword token password ip userAgent)
    (h : (d.perform V c).1 = .signedIn signed) :
    ∃ link user, d.getInvite (keyOf V token) = some link ∧ link.usedMs = none ∧
      d.getUser link.user = some user ∧ signed.user.id = user.id := by
  have did := perform_did (V := V) d c
  rw [h] at did
  generalize (d.perform V c).2 = d' at did
  cases did with
  | nothing n locks compared silent => cases silent
  | accepted hash op' => rw [op] at op'; cases op'
  | passworded hash locks op' found unused live account enabled =>
    rw [op] at op'
    cases op'
    exact ⟨_, _, found, unused, account, rfl⟩
  | loggedIn locks compared op' => rw [op] at op'; cases op'

/-- No link of `id` issued before `n` draws is unspent. -/
def Killed (V : Vault) (id : UserId) (n : Nat) (d : Directory) : Prop :=
  n ≤ d.drawn ∧ ∀ m < n, ∀ link, d.getInvite (keyOf V (V.token m)) = some link →
    link.usedMs = none → link.user ≠ id

/-- A link once killed stays so. -/
theorem Killed.step (hblake : Function.Injective V.blake3)
    (htoken : Function.Injective V.token) {id : UserId} (hid : id ≠ "") {n : Nat}
    (h : Killed V id n d) : Killed V id n (d.after V c) := by
  have did := perform_did (V := V) d c
  refine ⟨h.1.trans did.drawn_le, fun m hm link hlink hun => ?_⟩
  have hdrawn := h.1
  have new : ∀ k, d.drawn ≤ k → keyOf V (V.token m) = keyOf V (V.token k) → False := by
    intro k hk hkey
    exact keyOf_token_ne hblake htoken (by omega) hkey
  cases did.unspent hlink hun with
  | old stays => exact h.2 m hm link stays hun
  | minted op answer hkey nobody =>
    rw [nobody]
    exact fun h => hid h.symm
  | created k hk answer hkey => exact (new k (by omega) hkey).elim
  | reset op answer hkey => exact (new d.drawn (Nat.le_refl _) hkey).elim

/-- A call that resets an account, or sets its password by a link. -/
def Renews (V : Vault) (d : Directory) (c : Call) (id : UserId) : Prop :=
  (c.op = .resetPassword id ∧ ∃ token, (d.perform V c).1 = .link token) ∨
    ∃ token password ip userAgent signed,
      c.op = .setPassword token password ip userAgent ∧
        (d.perform V c).1 = .signedIn signed ∧ signed.user.id = id

/-- An account that was reset, or set its password, has no link left from before. -/
theorem OneLink.killed (hblake : Function.Injective V.blake3)
    (htoken : Function.Injective V.token) {id : UserId} (h : OneLink V d)
    (clear : d.ClearReset c) (renews : d.Renews V c id) :
    Killed V id d.drawn (d.after V c) := by
  have did := perform_did (V := V) d c
  refine ⟨did.drawn_le, fun m hm link hlink hun huser => ?_⟩
  have new : ∀ k, d.drawn ≤ k → keyOf V (V.token m) = keyOf V (V.token k) → False := by
    intro k hk hkey
    exact keyOf_token_ne hblake htoken (by omega) hkey
  obtain ⟨op, token, answer⟩ | ⟨token, password, ip, userAgent, signed, op, answer, hid⟩ := renews
  · cases did.unspent hlink hun with
    | old stays =>
      simp only [ClearReset, op] at clear
      exact clear.used stays huser hun
    | minted op' => rw [op] at op'; cases op'
    | created k hk answer' hkey => exact new k (by omega) hkey
    | reset op' answer' hkey => exact new d.drawn (Nat.le_refl _) hkey
  · obtain ⟨link', user, hlink', hun', hu, hsigned⟩ := setPassword_signed op answer
    have hid' : link'.user = id := by
      rw [← hid, hsigned]
      exact (h.registered.keyed _ _ hu).symm
    cases did.unspent hlink hun with
    | old stays replaced spent =>
      have hne : link.user ≠ "" := by
        rw [huser, ← hid']
        exact h.registered.id_ne hu
      exact spent _ _ _ _ _ op answer
        (h.one _ _ _ _ stays hlink' hun hun' (huser.trans hid'.symm) hne)
    | minted op' => rw [op] at op'; cases op'
    | created k hk answer' hkey => exact new k (by omega) hkey
    | reset op' => rw [op] at op'; cases op'

/-- A reset of an account that still has an unspent link leaves two that are live. -/
theorem reset_leaves_two (hblake : Function.Injective V.blake3)
    (htoken : Function.Injective V.token) (hreg : Registered V d) (hkeyed : Keyed V d)
    (hnobody : NobodysLink d) {id : UserId} {user : UserRecord} (hu : d.getUser id = some user)
    (enabled : user.disabled = false) (unspent : ¬ d.Spent id) (nowMs : Nat) :
    ∃ token token' link, token ≠ token' ∧ d.getInvite (keyOf V token) = some link ∧
      ∀ soonMs, soonMs < link.expiresMs → soonMs < nowMs + inviteTtlMs →
        ∃ u, u.id = id ∧
          (d.after V ⟨.resetPassword id, nowMs⟩).inviteStatus V token soonMs = .forUser u ∧
          (d.after V ⟨.resetPassword id, nowMs⟩).inviteStatus V token' soonMs = .forUser u := by
  simp only [Spent, not_forall, not_not] at unspent
  obtain ⟨⟨key, link⟩, hrow, huser, hun⟩ := unspent
  dsimp only at huser hun
  have hlink : d.getInvite key = some link :=
    (List.mem_dlookup_iff d.invites.nodupKeys).mpr hrow
  obtain ⟨n, hn, hkey⟩ := hkeyed key link hlink
  subst hkey
  have hne : n ≠ d.drawn := by omega
  have hkeys := keyOf_token_ne hblake htoken hne
  have hfirst : link.firstAdmin = false := by
    by_contra hfirst
    have hnil := hnobody _ _ hlink hun (by simpa using hfirst)
    exact hreg.id_ne hu (huser.symm.trans hnil)
  have hid := hreg.keyed id user hu
  refine ⟨V.token n, V.token d.drawn, link, fun h => hne (htoken h), hlink,
    fun soonMs hold hnew => ⟨{ user with passwordHash := none, passwordSetMs := none }, hid, ?_⟩⟩
  have hafter : d.after V ⟨.resetPassword id, nowMs⟩ =
      (((d.putUser { user with passwordHash := none, passwordSetMs := none }).revokeSessions
        id).2.invite V id nowMs).2 := by
    simp only [after, perform, resetPassword, hu, answered]
  have hget : (d.after V ⟨.resetPassword id, nowMs⟩).getUser id =
      some { user with passwordHash := none, passwordSetMs := none } := by
    rw [hafter, getUser_invite, getUser_revokeSessions]
    subst hid
    exact getUser_putUser { user with passwordHash := none, passwordSetMs := none }
  have hfilter : ((d.after V ⟨.resetPassword id, nowMs⟩).getUser id).filter
      (fun u => !u.disabled) = some { user with passwordHash := none, passwordSetMs := none } := by
    rw [hget, Option.filter_some, enabled]
    rfl
  constructor
  · have hl : (d.after V ⟨.resetPassword id, nowMs⟩).getInvite (keyOf V (V.token n)) =
        some link := by
      rw [hafter, getInvite_invite]
      exact (if_neg hkeys).trans hlink
    simp only [inviteStatus, hl, hun, hfirst, huser, hfilter]
    simp [Nat.not_le.mpr hold]
  · have hl : (d.after V ⟨.resetPassword id, nowMs⟩).getInvite (keyOf V (V.token d.drawn)) =
        some (userLink id nowMs) := by
      rw [hafter, getInvite_invite]
      exact if_pos rfl
    simp only [inviteStatus, hl, userLink, hfilter]
    simp [Nat.not_le.mpr hnew]

/-- **The live links of an account**: while every reset comes when the account's links are all
used, an account has at most one live link, and after a reset or a password set no earlier
token sets that account's password. And a reset that comes when one is not used leaves two
live links. -/
theorem one_link (huuid : Function.Injective V.uuid) (hblake : Function.Injective V.blake3)
    (htoken : Function.Injective V.token) :
    (∀ d, (system V).Runs ClearReset {} d →
      (∀ token token' nowMs user user', d.inviteStatus V token nowMs = .forUser user →
        d.inviteStatus V token' nowMs = .forUser user' → user.id = user'.id → token = token') ∧
      ∀ c id, d.ClearReset c → d.Renews V c id → ∀ d',
        (system V).Runs ClearReset (d.after V c) d' →
        ∀ token, (d.getInvite (keyOf V token)).isSome →
        ∀ password ip userAgent nowMs signed,
          (d'.perform V ⟨.setPassword token password ip userAgent, nowMs⟩).1 = .signedIn signed →
          signed.user.id ≠ id) ∧
    ∀ d, (system V).Runs (fun _ _ => True) {} d →
      ∀ id user nowMs, d.getUser id = some user → user.disabled = false → ¬ d.Spent id →
        ∃ token token' link, token ≠ token' ∧ d.getInvite (keyOf V token) = some link ∧
          ∀ soonMs, soonMs < link.expiresMs → soonMs < nowMs + inviteTtlMs →
            ∃ u, u.id = id ∧
              (d.after V ⟨.resetPassword id, nowMs⟩).inviteStatus V token soonMs = .forUser u ∧
              (d.after V ⟨.resetPassword id, nowMs⟩).inviteStatus V token' soonMs =
                .forUser u := by
  refine ⟨fun d run => ?_, fun d run id user nowMs hu henabled hspent => ?_⟩
  · have h := OneLink.runs huuid run
    refine ⟨fun token token' nowMs user user' hs hs' hid => ?_,
      fun c id clear renews d' run' token hissued password ip userAgent nowMs signed hsigned => ?_⟩
    · obtain ⟨link, hlink, hun, hu⟩ := inviteStatus_forUser hs
      obtain ⟨link', hlink', hun', hu'⟩ := inviteStatus_forUser hs'
      have huser : link.user = link'.user := by
        rw [← h.registered.keyed _ _ hu, ← h.registered.keyed _ _ hu', hid]
      have hne : link.user ≠ "" := h.registered.id_ne hu
      exact hblake (h.one _ _ _ _ hlink hlink' hun hun' huser hne)
    · intro hid
      have hid' : id ≠ "" := by
        obtain ⟨op, t, answer⟩ | ⟨t, p, i, u, s, op, answer, hs⟩ := renews
        · have hu : d.getUser id ≠ none := by
            intro hnone
            simp [perform, op, resetPassword, hnone, answered] at answer
          obtain ⟨user, hu⟩ := Option.ne_none_iff_exists'.mp hu
          exact h.registered.id_ne hu
        · obtain ⟨link, user, _, _, hu, hsu⟩ := setPassword_signed op answer
          rw [← hs, hsu, h.registered.keyed _ _ hu]
          exact h.registered.id_ne hu
      have hkilled : Killed V id d.drawn d' := run'.invariant (h.killed hblake htoken clear renews)
        fun _ _ hk _ _ => hk.step hblake htoken hid'
      have hreg : Registered V d' := run'.invariant (I := Registered V)
        ((perform_did d c).registered huuid h.registered)
        fun _ _ hr _ _ => (perform_did _ _).registered huuid hr
      obtain ⟨link, user, hlink, hun, hu, hsu⟩ := setPassword_signed rfl hsigned
      obtain ⟨old, hold⟩ := Option.isSome_iff_exists.mp hissued
      obtain ⟨n, hn, hkey⟩ := h.keyed _ _ hold
      rw [hkey] at hlink
      refine hkilled.2 n hn link hlink hun ?_
      rw [← hid, hsu, hreg.keyed _ _ hu]
  · have hall : Registered V d ∧ Keyed V d ∧ NobodysLink d :=
      run.invariant (I := fun d => Registered V d ∧ Keyed V d ∧ NobodysLink d)
        ⟨.empty, fun _ _ h => by simp [getInvite] at h, fun _ _ h => by simp [getInvite] at h⟩
        fun _ _ hi _ _ => ⟨(perform_did _ _).registered huuid hi.1, (perform_did _ _).keyed hi.2.1,
          (perform_did _ _).nobodysLink hi.2.2⟩
    exact reset_leaves_two hblake htoken hall.1 hall.2.1 hall.2.2 hu henabled hspent nowMs

/-- An account made, and reset before its first link is used. -/
def resetEarly : List Call :=
  [⟨.createUser "ana@x" "Ana" [.member], 1000⟩, ⟨.resetPassword "u_", 2000⟩]

theorem createUser_ana : ({} : Directory).createUser .plain "ana@x" "Ana" [.member] 1000 =
    .ok ((freshUser .plain 0 "ana@x" "Ana" [.member] 1000, "t"),
      ((({} : Directory).draw.putUser (freshUser .plain 0 "ana@x" "Ana" [.member] 1000)).invite
        .plain "u_" 1000).2) := by
  simp only [createUser, normaliseEmail_ana]
  rfl

/-- Both links of the account are live. -/
theorem two_live_links :
    ¬ ∀ (calls : List Call) (token token' : String) (nowMs : Nat) (user user' : UserRecord),
      (({} : Directory).run .plain calls).inviteStatus .plain token nowMs = .forUser user →
      (({} : Directory).run .plain calls).inviteStatus .plain token' nowMs = .forUser user' →
      user.id = user'.id → token = token' := by
  intro h
  have := h resetEarly "t" "tt" 3000
  simp only [resetEarly, run, List.foldl_cons, List.foldl_nil, after, perform, createUser_ana,
    answered] at this
  exact absurd (this _ _ rfl rfl rfl) (by decide)

/-- The account's link is used before the account is reset. -/
def resetLate : List Call :=
  [⟨.createUser "ana@x" "Ana" [.member], 1000⟩,
    ⟨.setPassword "t" "a long password" "" "", 1500⟩, ⟨.resetPassword "u_", 2000⟩]

/-- One link is live after a reset that comes late, and two are after one that comes early. -/
theorem one_link_plain :
    (∀ token token' nowMs user user',
      ((system .plain).run {} resetLate).inviteStatus .plain token nowMs = .forUser user →
      ((system .plain).run {} resetLate).inviteStatus .plain token' nowMs = .forUser user' →
      user.id = user'.id → token = token') ∧
    ∃ token token' link, token ≠ token' ∧
      (({} : Directory).after .plain ⟨.createUser "ana@x" "Ana" [.member], 1000⟩).getInvite
        (keyOf .plain token) = some link ∧
      ∀ soonMs, soonMs < link.expiresMs → soonMs < 2000 + inviteTtlMs →
        ∃ u, u.id = "u_" ∧
          (({} : Directory).run .plain resetEarly).inviteStatus .plain token soonMs =
            .forUser u ∧
          (({} : Directory).run .plain resetEarly).inviteStatus .plain token' soonMs =
            .forUser u := by
  have hlinks := one_link Vault.plain_uuid_injective Vault.plain_blake3_injective
    Vault.plain_token_injective
  have hspent : (({} : Directory).run .plain (resetLate.take 2)).Spent "u_" := by decide +kernel
  have hclear : (system .plain).Allowed ClearReset {} resetLate :=
    ⟨trivial, trivial, trivial, trivial, trivial, hspent, trivial⟩
  refine ⟨(hlinks.1 _ (Library.System.runs_of_list hclear)).1, ?_⟩
  have hafter : ({} : Directory).after .plain ⟨.createUser "ana@x" "Ana" [.member], 1000⟩ =
      ((({} : Directory).draw.putUser (freshUser .plain 0 "ana@x" "Ana" [.member] 1000)).invite
        .plain "u_" 1000).2 := by
    simp only [after, perform, createUser_ana, answered]
  have hreset := hlinks.2
      (({} : Directory).after .plain ⟨.createUser "ana@x" "Ana" [.member], 1000⟩)
      (.tail (a := Call.mk (.createUser "ana@x" "Ana" [.member]) 1000) .refl trivial trivial)
      "u_" (freshUser .plain 0 "ana@x" "Ana" [.member] 1000) 2000
  have hrun : ({} : Directory).run .plain resetEarly = (({} : Directory).after .plain
      ⟨.createUser "ana@x" "Ana" [.member], 1000⟩).after .plain ⟨.resetPassword "u_", 2000⟩ := rfl
  rw [hrun]
  rw [hafter] at hreset ⊢
  exact hreset rfl rfl (by decide)

end Directory

end LocalSpace
