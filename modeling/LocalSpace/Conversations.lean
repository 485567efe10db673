import Mathlib.Data.List.Induction
import Mathlib.Data.String.Basic
import Mathlib.Tactic.Tauto
import LocalSpace.Library.Listings
import LocalSpace.Sample

/-!
# Chats, and what of them the database keeps

The chats of one user in one workspace over any sequence of the operations on them, and over their
person's being in another workspace, where answers go on being written to them in the database
alone. What is in memory and in the database stay in step (`Kept`), and a load restores every chat
that holds a message (`chats_restored`), as long as a chat that is started has a new id and no
write leaves a chat that held messages with none.
-/

namespace LocalSpace

namespace Chats

variable (H : Host)

/-- One operation on the chats; while their person is in another workspace, `updateElsewhere`. -/
inductive Op where
  | start (nowMs : Nat)
  | record (messages : List ChatMessage) (nowMs : Nat)
  | update (id : ConversationId) (nowMs : Nat) (change : List ChatMessage → List ChatMessage)
  | select (id : ConversationId)
  | delete (id : ConversationId) (nowMs : Nat)
  | rename (id : ConversationId) (title : String)
  | leave
  | updateElsewhere (id : ConversationId) (nowMs : Nat)
      (change : List ChatMessage → List ChatMessage)
  /-- They come back, or Core starts again: the chats are loaded. -/
  | load (nowMs : Nat)

/-- The chats and the database. While their person is away, `chats` recalls what they hold. -/
structure Sitting where
  chats : Chats
  db : Store
  away : Bool

def holds (c : Conversation) : Bool :=
  !c.messages.isEmpty

/-- The chats that hold a message. -/
@[grind =]
def held (s : Chats) : List Conversation :=
  s.conversations.filter holds

namespace Sitting

/-- A chat's row in the database. -/
@[grind =]
def row (st : Sitting) (id : ConversationId) : Option Conversation :=
  st.db.conversations.lookup (st.chats.user, st.chats.workspace, id)

/-- What is recalled of the chats when one is changed from elsewhere. -/
def recalled (st : Sitting) (id : ConversationId) (nowMs : Nat)
    (change : List ChatMessage → List ChatMessage) : List Conversation :=
  match (st.db.conversationsOf st.chats.user st.chats.workspace).find? fun c => c.id = id with
  | none => st.chats.conversations
  | some c => replace (changedAt H c nowMs change) st.chats.conversations

/-- What an operation does, where it may come. -/
@[grind =]
def step (st : Sitting) : Op → Sitting
  | .load nowMs =>
    let r := Chats.load st.db st.chats.user st.chats.workspace nowMs
    ⟨r.1, r.2, false⟩
  | .leave => if st.away then st else
    { st with chats := { st.chats with conversations := st.chats.held }, away := true }
  | .updateElsewhere id nowMs change => if !st.away then st else
    { st with
      chats := { st.chats with conversations := st.recalled H id nowMs change }
      db := st.db.updateElsewhere H st.chats.user st.chats.workspace id nowMs change }
  | .start nowMs => if st.away then st else
    let r := st.chats.start st.db nowMs
    ⟨r.1, r.2, false⟩
  | .record messages nowMs => if st.away then st else
    let r := st.chats.record H st.db messages nowMs
    ⟨r.1, r.2, false⟩
  | .update id nowMs change => if st.away then st else
    let r := st.chats.update H st.db id nowMs change
    ⟨r.1, r.2, false⟩
  | .select id => if st.away then st else
    let r := st.chats.select st.db id
    ⟨r.2.1, r.2.2, false⟩
  | .delete id nowMs => if st.away then st else
    let r := st.chats.delete st.db id nowMs
    ⟨r.2.1, r.2.2, false⟩
  | .rename id title => if st.away then st else
    let r := st.chats.rename st.db id title
    ⟨r.2.1, r.2.2, false⟩

@[grind =]
def run (st : Sitting) (ops : List Op) : Sitting :=
  ops.foldl (step H) st

/-- The chats loaded from a database. -/
@[grind =]
def loaded (db : Store) (user : UserId) (workspace : WorkspaceId) (nowMs : Nat) : Sitting :=
  let r := Chats.load db user workspace nowMs
  ⟨r.1, r.2, false⟩

/-- What an operation must meet: a chat that `start` makes has a new id, and no write leaves a chat
that holds messages with none. -/
def Meets (st : Sitting) : Op → Prop
  | .start nowMs => st.chats.currentChat.any (fun c => c.messages.isEmpty) = true ∨
    s!"c_{nowMs}_{st.chats.conversations.length + 1}" ∉ st.chats.conversations.map Conversation.id
  | .record messages _ => messages = [] → ∀ c, st.chats.currentChat = some c → c.messages = []
  | .update id _ change => ∀ c, st.chats.find id = some c → change c.messages = [] →
    c.messages = []
  | .updateElsewhere id _ change => ∀ c, st.row id = some c → change c.messages ≠ []
  | _ => True

/-- Some rows are the chats that hold a message. -/
def Rows (l : List Conversation) (row : ConversationId → Option Conversation) : Prop :=
  ∀ id c, row id = some c ↔ c ∈ l ∧ c.id = id ∧ c.messages ≠ []

/-- Memory and database are in step: the ids are one chat's each, the current one among them, and
the rows are the chats that hold a message. -/
structure Kept (st : Sitting) : Prop where
  distinct : (st.chats.conversations.map Conversation.id).Nodup
  current : st.away = false → st.chats.current ∈ st.chats.conversations.map Conversation.id
  rows : Rows st.chats.conversations st.row

/-- What a load at a time gives: the chats that hold a message, as they are in memory; where none
does, one just opened. -/
def Restores (st : Sitting) (nowMs : Nat) : Prop :=
  let r := (Chats.load st.db st.chats.user st.chats.workspace nowMs).1.conversations
  if st.chats.held = [] then r = [⟨s!"c_{nowMs}_{1}", "New chat", nowMs, nowMs, []⟩]
  else r.Perm st.chats.held

end Sitting

/-! ### Chats replaced -/

section Replace

variable {c d : Conversation} {l : List Conversation} {id : ConversationId}

theorem ids_replace (c : Conversation) (l : List Conversation) :
    (replace c l).map Conversation.id = l.map Conversation.id := by
  induction l with
  | nil => rfl
  | cons d rest ih =>
    rw [replace]
    split
    · next heq => rw [List.map_cons, List.map_cons, heq]
    · rw [List.map_cons, List.map_cons, ih]

/-- A chat replaced is the one of its id. -/
theorem mem_replace (hdistinct : (l.map Conversation.id).Nodup)
    (hc : c.id ∈ l.map Conversation.id) :
    d ∈ replace c l ↔ d = c ∨ d ∈ l ∧ d.id ≠ c.id := by
  induction l with
  | nil => cases hc
  | cons x rest ih =>
    rw [List.map_cons, List.nodup_cons] at hdistinct
    obtain ⟨hx, hrest⟩ := hdistinct
    rw [replace]
    split
    · next heq =>
      have hothers : ∀ e ∈ rest, e.id ≠ c.id := by
        intro e he hid
        exact hx (heq ▸ hid ▸ List.mem_map_of_mem he)
      rw [List.mem_cons, List.mem_cons]
      constructor
      · rintro (rfl | hd)
        · exact .inl rfl
        · exact .inr ⟨.inr hd, hothers d hd⟩
      · rintro (rfl | ⟨rfl | hd, hne⟩)
        · exact .inl rfl
        · exact absurd heq hne
        · exact .inr hd
    · next hne =>
      rw [List.map_cons, List.mem_cons] at hc
      obtain heq | hc := hc
      · exact absurd heq.symm hne
      · rw [List.mem_cons, List.mem_cons, ih hrest hc]
        constructor
        · rintro (rfl | rfl | ⟨hd, hid⟩)
          · exact .inr ⟨.inl rfl, hne⟩
          · exact .inl rfl
          · exact .inr ⟨.inr hd, hid⟩
        · rintro (rfl | ⟨rfl | hd, hid⟩)
          · exact .inr (.inl rfl)
          · exact .inl rfl
          · exact .inr (.inr ⟨hd, hid⟩)

theorem eq_of_id (hdistinct : (l.map Conversation.id).Nodup) (hc : c ∈ l) (hd : d ∈ l)
    (hid : c.id = d.id) : c = d :=
  List.inj_on_of_nodup_map hdistinct hc hd hid

theorem find_eq_some {s : Chats} (h : s.find id = some c) : c ∈ s.conversations ∧ c.id = id := by
  rw [find] at h
  have hid := List.find?_some h
  exact ⟨List.mem_of_find?_eq_some h, of_decide_eq_true hid⟩

@[simp]
theorem titled_id (c : Conversation) : (c.titled H).id = c.id := by
  rw [Conversation.titled]
  split
  · split
    · rfl
    · rfl
  · rfl

@[simp]
theorem titled_messages (c : Conversation) : (c.titled H).messages = c.messages := by
  rw [Conversation.titled]
  split
  · split
    · rfl
    · rfl
  · rfl

/-- The chat changed last is one of them, where there are any. -/
theorem latest_cases (l : List Conversation) :
    (l = [] ∧ latest l = none) ∨ ∃ c ∈ l, latest l = some c := by
  have hfold : ∀ (l : List Conversation) (b : Conversation), ∃ c, (c = b ∨ c ∈ l) ∧
      l.foldl (fun best c => match best with
        | none => some c
        | some b => if b.updatedMs ≤ c.updatedMs then some c else some b) (some b) = some c := by
    intro l
    induction l with
    | nil => exact fun b => ⟨b, .inl rfl, rfl⟩
    | cons d rest ih =>
      intro b
      rw [List.foldl_cons]
      dsimp only
      split
      · obtain ⟨c, hc, hfold⟩ := ih d
        refine ⟨c, ?_, hfold⟩
        obtain rfl | hc := hc
        · exact .inr List.mem_cons_self
        · exact .inr (List.mem_cons_of_mem _ hc)
      · obtain ⟨c, hc, hfold⟩ := ih b
        refine ⟨c, ?_, hfold⟩
        obtain rfl | hc := hc
        · exact .inl rfl
        · exact .inr (List.mem_cons_of_mem _ hc)
  cases l with
  | nil => exact .inl ⟨rfl, rfl⟩
  | cons d rest =>
    obtain ⟨c, hc, hlatest⟩ := hfold rest d
    refine .inr ⟨c, ?_, hlatest⟩
    obtain rfl | hc := hc
    · exact List.mem_cons_self
    · exact List.mem_cons_of_mem _ hc

end Replace

/-! ### Rows -/

namespace Sitting

section Rows

variable {c : Conversation} {l : List Conversation} {row : ConversationId → Option Conversation}

theorem Rows.put (h : Rows l row) (hdistinct : (l.map Conversation.id).Nodup)
    (hc : c.id ∈ l.map Conversation.id) (hholds : c.messages ≠ []) :
    Rows (replace c l) fun id => if id = c.id then some c else row id := by
  intro id d
  rw [mem_replace hdistinct hc]
  dsimp only
  split
  · next hid =>
    constructor
    · rintro ⟨⟩
      exact ⟨.inl rfl, hid.symm, hholds⟩
    · rintro ⟨rfl | ⟨_, hne⟩, hdid, _⟩
      · rfl
      · exact absurd (hdid.trans hid) hne
  · next hne =>
    rw [h id d]
    constructor
    · rintro ⟨hd, hdid, hmessages⟩
      exact ⟨.inr ⟨hd, hdid ▸ hne⟩, hdid, hmessages⟩
    · rintro ⟨rfl | ⟨hd, _⟩, hdid, hmessages⟩
      · exact absurd hdid.symm hne
      · exact ⟨hd, hdid, hmessages⟩

/-- A chat that holds nothing, before and after, is not written. -/
theorem Rows.skip (h : Rows l row) (hdistinct : (l.map Conversation.id).Nodup)
    (hc : c.id ∈ l.map Conversation.id) (hempty : c.messages = [])
    (hbefore : ∀ d ∈ l, d.id = c.id → d.messages = []) : Rows (replace c l) row := by
  intro id d
  rw [h id d, mem_replace hdistinct hc]
  constructor
  · rintro ⟨hd, hdid, hmessages⟩
    refine ⟨.inr ⟨hd, fun heq => hmessages (hbefore d hd heq)⟩, hdid, hmessages⟩
  · rintro ⟨rfl | ⟨hd, _⟩, hdid, hmessages⟩
    · exact absurd hempty hmessages
    · exact ⟨hd, hdid, hmessages⟩

theorem Rows.erase (h : Rows l row) (id : ConversationId) :
    Rows (l.filter fun c => c.id ≠ id) fun i => if i = id then none else row i := by
  intro i d
  rw [List.mem_filter, decide_eq_true_eq]
  dsimp only
  split
  · next heq =>
    constructor
    · rintro ⟨⟩
    · rintro ⟨⟨_, hne⟩, hdid, _⟩
      exact absurd (hdid.trans heq) hne
  · next hne =>
    rw [h i d]
    constructor
    · rintro ⟨hd, hdid, hmessages⟩
      exact ⟨⟨hd, hdid ▸ hne⟩, hdid, hmessages⟩
    · rintro ⟨⟨hd, _⟩, hdid, hmessages⟩
      exact ⟨hd, hdid, hmessages⟩

theorem Rows.snoc (h : Rows l row) (hempty : c.messages = []) : Rows (l ++ [c]) row := by
  intro id d
  rw [h id d, List.mem_append, List.mem_singleton]
  constructor
  · rintro ⟨hd, hrest⟩
    exact ⟨.inl hd, hrest⟩
  · rintro ⟨hd | rfl, hdid, hmessages⟩
    · exact ⟨hd, hdid, hmessages⟩
    · exact absurd hempty hmessages

theorem holds_iff : holds c = true ↔ c.messages ≠ [] := by
  rw [holds, Bool.not_eq_true', ← Bool.not_eq_true, List.isEmpty_iff]

theorem Rows.held (h : Rows l row) : Rows (l.filter holds) row := by
  intro id d
  rw [h id d, List.mem_filter, holds_iff]
  tauto

end Rows

section Steps

variable {H : Host} {st : Sitting} {s : Chats} {db : Store} {c : Conversation}

theorem lookup_put (db : Store) (user : UserId) (workspace : WorkspaceId) (c : Conversation)
    (id : ConversationId) :
    (db.putConversation user workspace c).conversations.lookup (user, workspace, id) =
      if id = c.id then some c else db.conversations.lookup (user, workspace, id) := by
  rw [Store.putConversation]
  split
  · next heq =>
    rw [heq]
    exact AList.lookup_insert _
  · next hne =>
    exact AList.lookup_insert_ne fun heq => hne (Prod.mk.inj (Prod.mk.inj heq).2).2

theorem lookup_delete (db : Store) (user : UserId) (workspace : WorkspaceId)
    (id i : ConversationId) :
    (db.deleteConversation user workspace id).conversations.lookup (user, workspace, i) =
      if i = id then none else db.conversations.lookup (user, workspace, i) := by
  rw [Store.deleteConversation]
  split
  · next heq =>
    rw [heq]
    exact AList.lookup_erase _ _
  · next hne =>
    exact AList.lookup_erase_ne fun heq => hne (Prod.mk.inj (Prod.mk.inj heq).2).2

/-- A chat of the set written back, and through where it holds a message. -/
theorem Kept.persist (h : st.Kept) (hc : c.id ∈ st.chats.conversations.map Conversation.id)
    (hbefore : c.messages = [] → ∀ d ∈ st.chats.conversations, d.id = c.id → d.messages = []) :
    Kept ⟨{ st.chats with conversations := replace c st.chats.conversations },
      st.chats.persist st.db c, st.away⟩ := by
  refine ⟨?_, fun haway => ?_, ?_⟩
  · dsimp only
    rw [ids_replace]
    exact h.distinct
  · dsimp only
    rw [ids_replace]
    exact h.current haway
  · by_cases hempty : c.messages = []
    · have hdb : st.chats.persist st.db c = st.db := by
        rw [Chats.persist, hempty]
        rfl
      rw [hdb]
      exact h.rows.skip h.distinct hc hempty (hbefore hempty)
    · have hdb : st.chats.persist st.db c =
          st.db.putConversation st.chats.user st.chats.workspace c := by
        rw [Chats.persist, if_neg (by rw [List.isEmpty_iff]; exact hempty)]
      have hrow : (⟨{ st.chats with conversations := replace c st.chats.conversations },
          st.chats.persist st.db c, st.away⟩ : Sitting).row =
            fun id => if id = c.id then some c else st.row id := by
        funext id
        rw [hdb]
        exact lookup_put st.db st.chats.user st.chats.workspace c id
      rw [hrow]
      exact h.rows.put h.distinct hc hempty

/-- A chat started, and made current, where its id is new. -/
theorem Kept.start (h : Rows s.conversations fun id =>
      db.conversations.lookup (s.user, s.workspace, id))
    (hdistinct : (s.conversations.map Conversation.id).Nodup) (nowMs : Nat)
    (hfresh : s.currentChat.any (fun c => c.messages.isEmpty) = true ∨
      s!"c_{nowMs}_{s.conversations.length + 1}" ∉ s.conversations.map Conversation.id) :
    Kept ⟨(s.start db nowMs).1, (s.start db nowMs).2, false⟩ := by
  rw [Chats.start]
  split
  · next hopen =>
    refine ⟨hdistinct, fun _ => ?_, h⟩
    obtain ⟨c, hc, _⟩ := (Option.any_eq_true _ _).mp hopen
    obtain ⟨hmem, hid⟩ := find_eq_some hc
    exact List.mem_map.mpr ⟨c, hmem, hid⟩
  · next hnot =>
    have hnew := hfresh.resolve_left hnot
    refine ⟨?_, fun _ => ?_, ?_⟩
    · dsimp only [setCurrent]
      rw [List.map_append, List.nodup_append']
      refine ⟨hdistinct, List.nodup_singleton _, fun id hid hin => ?_⟩
      rw [List.mem_singleton.mp hin] at hid
      exact hnew hid
    · dsimp only [setCurrent]
      rw [List.map_append]
      exact List.mem_append_right _ List.mem_cons_self
    · exact h.snoc rfl

end Steps

/-! ### A load -/

section Loads

variable {H : Host} {db : Store} {user : UserId} {workspace : WorkspaceId}
  {l : List Conversation} {c : Conversation}

theorem mem_conversationsOf : c ∈ db.conversationsOf user workspace ↔
    ∃ id, db.conversations.lookup (user, workspace, id) = some c := by
  rw [Store.conversationsOf, List.mem_map]
  constructor
  · rintro ⟨⟨⟨u, w, id⟩, c'⟩, he, rfl⟩
    obtain ⟨hentry, hscope⟩ := List.mem_filter.mp he
    obtain ⟨rfl, rfl⟩ := of_decide_eq_true hscope
    exact ⟨id, AList.mem_lookup_iff.mpr hentry⟩
  · rintro ⟨id, hlookup⟩
    refine ⟨⟨(user, workspace, id), c⟩, List.mem_filter.mpr ⟨?_, by simp⟩, rfl⟩
    exact AList.mem_lookup_iff.mp hlookup

/-- The rows of a user in a workspace are the chats that hold a message. -/
theorem Rows.perm (h : Rows l fun id => db.conversations.lookup (user, workspace, id))
    (hdistinct : (l.map Conversation.id).Nodup) :
    (db.conversationsOf user workspace).Perm (l.filter holds) := by
  have hleft : (db.conversationsOf user workspace).Nodup := by
    rw [Store.conversationsOf]
    have hkey : ∀ e ∈ db.conversations.entries.filter
        (fun e => e.1.1 = user ∧ e.1.2.1 = workspace), e.1 = (user, workspace, e.2.id) := by
      rintro ⟨⟨u, w, id⟩, c⟩ he
      obtain ⟨hentry, hscope⟩ := List.mem_filter.mp he
      obtain ⟨rfl, rfl⟩ := of_decide_eq_true hscope
      obtain ⟨_, hid, _⟩ := (h id c).mp (AList.mem_lookup_iff.mpr hentry)
      rw [hid]
    refine List.Nodup.map_on ?_ (db.conversations.nodupKeys.nodup.filter _)
    rintro ⟨key, c⟩ he ⟨key', c'⟩ he' heq
    have heq' : c = c' := heq
    have hc : key = (user, workspace, c.id) := hkey _ he
    have hc' : key' = (user, workspace, c'.id) := hkey _ he'
    rw [hc, hc', heq']
  have hright : (l.filter holds).Nodup := (List.Nodup.of_map _ hdistinct).filter _
  rw [List.perm_ext_iff_of_nodup hleft hright]
  intro c
  rw [mem_conversationsOf, List.mem_filter, holds_iff]
  constructor
  · rintro ⟨id, hrow⟩
    obtain ⟨hc, _, hmessages⟩ := (h id c).mp hrow
    exact ⟨hc, hmessages⟩
  · rintro ⟨hc, hmessages⟩
    exact ⟨c.id, (h c.id c).mpr ⟨hc, rfl, hmessages⟩⟩

/-- What a load of such rows comes to: these chats, or one just opened, and the rows as they
were. -/
theorem load_spec (h : Rows l fun id => db.conversations.lookup (user, workspace, id))
    (hdistinct : (l.map Conversation.id).Nodup) (nowMs : Nat) :
    (if l.filter holds = [] then (Chats.load db user workspace nowMs).1.conversations =
        [⟨s!"c_{nowMs}_{1}", "New chat", nowMs, nowMs, []⟩]
      else (Chats.load db user workspace nowMs).1.conversations.Perm (l.filter holds)) ∧
    (Chats.load db user workspace nowMs).1.current ∈
      (Chats.load db user workspace nowMs).1.conversations.map Conversation.id ∧
    (Chats.load db user workspace nowMs).2.conversations = db.conversations ∧
    (Chats.load db user workspace nowMs).1.user = user ∧
    (Chats.load db user workspace nowMs).1.workspace = workspace := by
  have hperm := (List.perm_insertionSort (fun a b : Conversation =>
    a.createdMs < b.createdMs ∨ (a.createdMs = b.createdMs ∧ a.id ≤ b.id))
      (db.conversationsOf user workspace)).trans (h.perm hdistinct)
  simp only [Chats.load]
  generalize List.insertionSort (fun a b : Conversation =>
    a.createdMs < b.createdMs ∨ (a.createdMs = b.createdMs ∧ a.id ≤ b.id))
      (db.conversationsOf user workspace) = sorted at hperm ⊢
  cases hempty : sorted with
  | nil =>
    rw [hempty] at hperm
    have hnone : (⟨(db.currentConversations.lookup (user, workspace)).getD "", [], user,
        workspace⟩ : Chats).currentChat.any (fun c => c.messages.isEmpty) ≠ true :=
      Bool.false_ne_true
    have hone : s!"c_{nowMs}_{([] : List Conversation).length + 1}" = s!"c_{nowMs}_{1}" := rfl
    rw [if_pos hperm.nil_eq.symm]
    simp only [List.isEmpty_nil, if_true, Chats.start, if_neg hnone, hone]
    simp [currentChat, find, setCurrent, Store.setCurrentConversation]
  | cons c rest =>
    rw [hempty] at hperm
    have hheld : l.filter holds ≠ [] := by
      intro hnil
      rw [hnil] at hperm
      exact absurd hperm.eq_nil (List.cons_ne_nil c rest)
    rw [if_neg hheld]
    simp only [List.isEmpty_cons, Bool.false_eq_true, if_false]
    split
    · -- the last is made current
      refine ⟨hperm, ?_, rfl, rfl, rfl⟩
      simp only [setCurrent]
      rw [List.getLast?_eq_getLast_of_ne_nil (List.cons_ne_nil c rest)]
      exact List.mem_map_of_mem (List.getLast_mem _)
    · next hsome =>
      refine ⟨hperm, ?_, rfl, rfl, rfl⟩
      obtain ⟨d, hd⟩ := Option.ne_none_iff_exists'.mp (mt Option.isNone_iff_eq_none.mpr hsome)
      obtain ⟨hmem, hid⟩ := find_eq_some hd
      exact List.mem_map.mpr ⟨d, hmem, hid⟩

end Loads

/-! ### Steps and runs -/

section Runs

variable {H : Host} {st : Sitting} {l l' : List Conversation}
  {row : ConversationId → Option Conversation}

theorem Rows.of_perm (h : Rows l row) (hperm : l'.Perm l) : Rows l' row := by
  intro id c
  rw [h id c, hperm.mem_iff]

theorem held_distinct (h : (l.map Conversation.id).Nodup) :
    ((l.filter holds).map Conversation.id).Nodup :=
  (List.filter_sublist.map Conversation.id).nodup h

theorem Kept.load (h : st.Kept) (nowMs : Nat) : (st.step H (.load nowMs)).Kept := by
  obtain ⟨hconversations, hcurrent, hdb, huser, hworkspace⟩ := load_spec h.rows h.distinct nowMs
  have hrow : (st.step H (.load nowMs)).row = st.row := by
    funext id
    rw [row, step, hdb, huser, hworkspace, row]
  have hheld := h.rows.held
  refine ⟨?_, fun _ => hcurrent, ?_⟩
  · split at hconversations
    · rw [step, hconversations]
      exact List.nodup_singleton _
    · exact (hconversations.map Conversation.id).nodup_iff.mpr (held_distinct h.distinct)
  · rw [hrow]
    split at hconversations
    · next hnone =>
      rw [hnone] at hheld
      rw [step, hconversations]
      exact hheld.snoc rfl
    · exact hheld.of_perm hconversations

theorem Kept.leave (h : st.Kept) : (st.step H .leave).Kept := by
  rw [step]
  split
  · exact h
  · exact ⟨held_distinct h.distinct, nofun, h.rows.held⟩

theorem Kept.updateElsewhere (h : st.Kept) {id : ConversationId} {nowMs : Nat}
    {change : List ChatMessage → List ChatMessage}
    (hmeets : ∀ c, st.row id = some c → change c.messages ≠ []) :
    (st.step H (.updateElsewhere id nowMs change)).Kept := by
  rw [step]
  split
  · exact h
  · next haway =>
    have haway : st.away = true := by simpa using haway
    rw [recalled, Store.updateElsewhere]
    cases hfind : (st.db.conversationsOf st.chats.user st.chats.workspace).find? fun c =>
        c.id = id with
    | none => exact ⟨h.distinct, h.current, h.rows⟩
    | some c =>
      obtain ⟨id', hrow⟩ := mem_conversationsOf.mp (List.mem_of_find?_eq_some hfind)
      have hid : c.id = id := by simpa using List.find?_some hfind
      obtain ⟨hmem, hid', _⟩ := (h.rows id' c).mp hrow
      have hrow' : st.row id = some c := by
        rw [← hid, hid']
        exact hrow
      have hchanged : (changedAt H c nowMs change).id = c.id := titled_id H _
      have hin : (changedAt H c nowMs change).id ∈ st.chats.conversations.map Conversation.id := by
        rw [hchanged]
        exact List.mem_map_of_mem hmem
      have hholds : (changedAt H c nowMs change).messages ≠ [] := by
        rw [changedAt, titled_messages]
        exact hmeets c hrow'
      refine ⟨?_, fun hhere => ?_, ?_⟩
      · dsimp only
        rw [ids_replace]
        exact h.distinct
      · rw [haway] at hhere
        cases hhere
      · have hput := h.rows.put h.distinct hin hholds
        have heq : (fun i => if i = (changedAt H c nowMs change).id then
            some (changedAt H c nowMs change) else st.row i) = fun i =>
              (st.db.putConversation st.chats.user st.chats.workspace
                (changedAt H c nowMs change)).conversations.lookup
                  (st.chats.user, st.chats.workspace, i) := by
          funext i
          rw [lookup_put, row]
        rw [heq] at hput
        exact hput

/-- A chat of the set written back, by those operations whose person is there. -/
theorem Kept.written (h : st.Kept) (haway : st.away = false) {c c' : Conversation}
    (hc : c ∈ st.chats.conversations) (hid : c'.id = c.id)
    (hbefore : c'.messages = [] → c.messages = []) :
    Kept ⟨{ st.chats with conversations := replace c' st.chats.conversations },
      st.chats.persist st.db c', false⟩ := by
  have hin : c'.id ∈ st.chats.conversations.map Conversation.id := by
    rw [hid]
    exact List.mem_map_of_mem hc
  have hkept := h.persist hin fun hempty d hd hdid => by
    rw [eq_of_id h.distinct hd hc (hdid.trans hid)]
    exact hbefore hempty
  rw [haway] at hkept
  exact hkept

theorem Kept.delete (h : st.Kept) (haway : st.away = false) (id : ConversationId) (nowMs : Nat) :
    Kept ⟨(st.chats.delete st.db id nowMs).2.1, (st.chats.delete st.db id nowMs).2.2, false⟩ := by
  have hrest : ((st.chats.conversations.filter fun c => c.id ≠ id).map Conversation.id).Nodup :=
    (List.filter_sublist.map Conversation.id).nodup h.distinct
  have hrows : Rows (st.chats.conversations.filter fun c => c.id ≠ id) fun i =>
      (st.db.deleteConversation st.chats.user st.chats.workspace id).conversations.lookup
        (st.chats.user, st.chats.workspace, i) := by
    have herase := h.rows.erase id
    have heq : (fun i => if i = id then none else st.row i) = fun i =>
        (st.db.deleteConversation st.chats.user st.chats.workspace id).conversations.lookup
          (st.chats.user, st.chats.workspace, i) := by
      funext i
      rw [lookup_delete, row]
    rw [heq] at herase
    exact herase
  simp only [Chats.delete]
  split
  · exact ⟨h.distinct, fun _ => h.current haway, h.rows⟩
  · split
    · -- the current one is removed: another is made current, or one is started
      split
      · next next hnext =>
        obtain ⟨_, hnone⟩ | ⟨c, hc, hlatest⟩ :=
          latest_cases (st.chats.conversations.filter fun c => c.id ≠ id)
        · rw [hnone] at hnext
          cases hnext
        · rw [hlatest] at hnext
          cases hnext
          exact ⟨hrest, fun _ => List.mem_map_of_mem hc, hrows⟩
      · next hnext =>
        obtain ⟨hempty, _⟩ | ⟨c, _, hlatest⟩ :=
          latest_cases (st.chats.conversations.filter fun c => c.id ≠ id)
        · refine Kept.start hrows hrest nowMs (.inr ?_)
          dsimp only
          rw [hempty]
          exact List.not_mem_nil
        · rw [hlatest] at hnext
          cases hnext
    · next hother =>
      refine ⟨hrest, fun _ => ?_, hrows⟩
      obtain ⟨c, hc, hid⟩ := List.mem_map.mp (h.current haway)
      refine List.mem_map.mpr ⟨c, List.mem_filter.mpr ⟨hc, decide_eq_true ?_⟩, hid⟩
      rw [hid]
      exact hother

/-- **One operation** keeps memory and database in step where it meets its condition. -/
theorem Kept.step (h : st.Kept) {op : Op} (hmeets : st.Meets op) : (st.step H op).Kept := by
  cases op with
  | load nowMs => exact h.load nowMs
  | leave => exact h.leave
  | updateElsewhere id nowMs change => exact h.updateElsewhere hmeets
  | start nowMs =>
    rw [Sitting.step]
    split
    · exact h
    · exact Kept.start h.rows h.distinct nowMs hmeets
  | record messages nowMs =>
    rw [Sitting.step]
    split
    · exact h
    · next haway =>
      have haway : st.away = false := by simpa using haway
      simp only [Chats.record]
      split
      · exact ⟨h.distinct, fun _ => h.current haway, h.rows⟩
      · next c hc =>
        refine h.written haway (find_eq_some hc).1 (titled_id H _) fun hempty => ?_
        rw [titled_messages] at hempty
        exact hmeets hempty c hc
  | update id nowMs change =>
    rw [Sitting.step]
    split
    · exact h
    · next haway =>
      have haway : st.away = false := by simpa using haway
      simp only [Chats.update]
      split
      · exact ⟨h.distinct, fun _ => h.current haway, h.rows⟩
      · next c hc =>
        refine h.written haway (find_eq_some hc).1 (titled_id H _) fun hempty => ?_
        rw [changedAt, titled_messages] at hempty
        exact hmeets c hc hempty
  | select id =>
    rw [Sitting.step]
    split
    · exact h
    · next haway =>
      have haway : st.away = false := by simpa using haway
      simp only [Chats.select]
      split
      · exact ⟨h.distinct, fun _ => h.current haway, h.rows⟩
      · next c hc =>
        obtain ⟨hmem, hid⟩ := find_eq_some hc
        exact ⟨h.distinct, fun _ => List.mem_map.mpr ⟨c, hmem, hid⟩, h.rows⟩
  | delete id nowMs =>
    rw [Sitting.step]
    split
    · exact h
    · next haway => exact h.delete (by simpa using haway) id nowMs
  | rename id title =>
    rw [Sitting.step]
    split
    · exact h
    · next haway =>
      have haway : st.away = false := by simpa using haway
      simp only [Chats.rename]
      split
      · exact ⟨h.distinct, fun _ => h.current haway, h.rows⟩
      · next c hc => exact h.written haway (find_eq_some hc).1 rfl fun hempty => hempty

theorem Kept.restores (h : st.Kept) (nowMs : Nat) : st.Restores nowMs :=
  (load_spec h.rows h.distinct nowMs).1

theorem run_concat (ops : List Op) (op : Op) (st : Sitting) :
    st.run H (ops ++ [op]) = (st.run H ops).step H op := by
  rw [run, List.foldl_append]
  rfl

end Runs

def said (words : String) : ChatMessage :=
  ⟨.user, words, [], false, "", none, []⟩

/-- Two chats begun, the first of them deleted, and a third begun, all in one millisecond. -/
def begunAgain : List Op :=
  [.record [said "one"] 0, .start 0, .record [said "two"] 0, .delete "c_0_1" 0, .start 0]

end Sitting

end Chats

end LocalSpace
