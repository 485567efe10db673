import LocalSpace.Library.Runs

/-!
# Programs over a state, and what they do to it

A program is a `StateM σ α`. What is said about one is closed under everything a program is
built of, so that it is shown of a program by following its text.

* `Within R m`, for a preorder `R` of states: `m` ends, from wherever it begins, in a state
  `R`-related to the one it began in, "nothing but this kind of change".
* `Within (Keeping P R) m`: the same from the states of `P` alone, and `P` holds where `m`
  ends; for what a program may do only because of something that holds all along.
-/

namespace Library

variable {σ α β : Type}

/-! ### How a program runs -/

theorem run_bind (m : StateM σ α) (f : α → StateM σ β) (s : σ) :
    (m >>= f).run s = (f (m.run s).1).run (m.run s).2 :=
  rfl

theorem run_pure (a : α) (s : σ) : (pure a : StateM σ α).run s = (a, s) :=
  rfl

theorem run_get (s : σ) : (get : StateM σ σ).run s = (s, s) :=
  rfl

theorem run_modify (f : σ → σ) (s : σ) : (modify f : StateM σ PUnit).run s = (⟨⟩, f s) :=
  rfl

/-! ### What a program does, from any state -/

/-- From every state, `m` ends in a state related by `R` to the one it began in. -/
def Within (R : σ → σ → Prop) (m : StateM σ α) : Prop :=
  ∀ s, R s (m.run s).2

namespace Within

variable {R R' : σ → σ → Prop} {m : StateM σ α}

theorem pure [Std.Refl R] (a : α) : Within R (Pure.pure a : StateM σ α) :=
  fun s => Std.Refl.refl s

theorem bind [IsTrans σ R] {f : α → StateM σ β} (hm : Within R m) (hf : ∀ a, Within R (f a)) :
    Within R (m >>= f) :=
  fun s => IsTrans.trans _ _ _ (hm s) (hf _ _)

theorem get [Std.Refl R] : Within R (MonadState.get : StateM σ σ) :=
  fun s => Std.Refl.refl s

/-- What follows a read knows what was read to be the state it begins in. -/
theorem get_bind {f : σ → StateM σ β} (hf : ∀ s, R s ((f s).run s).2) :
    Within R ((MonadState.get : StateM σ σ) >>= f) :=
  hf

theorem change {f : σ → σ} (hf : ∀ s, R s (f s)) : Within R (modify f : StateM σ PUnit) :=
  hf

/-- A change from a known state, and what follows it. -/
theorem change_bind [IsTrans σ R] {f : σ → σ} {k : PUnit → StateM σ β} {s : σ} (hf : R s (f s))
    (hk : ∀ u, Within R (k u)) : R s (((modify f : StateM σ PUnit) >>= k).run s).2 :=
  IsTrans.trans _ _ _ hf (hk _ _)

theorem ite {p : Prop} [Decidable p] {n : StateM σ α} (hm : p → Within R m)
    (hn : ¬p → Within R n) : Within R (if p then m else n) := by
  by_cases h : p
  · rw [if_pos h]
    exact hm h
  · rw [if_neg h]
    exact hn h

theorem forM [IsPreorder σ R] {f : β → StateM σ PUnit} {xs : List β}
    (hf : ∀ x ∈ xs, Within R (f x)) : Within R (xs.forM f) := by
  induction xs with
  | nil => exact Within.pure _
  | cons x xs ih =>
    exact (hf x List.mem_cons_self).bind fun _ => ih fun y hy => hf y (List.mem_cons_of_mem _ hy)

theorem mono (hm : Within R m) (h : ∀ s t, R s t → R' s t) : Within R' m :=
  fun s => h _ _ (hm s)

end Within

/-! ### What a program does act by act -/

section Acts

variable {π : Type*} {act : π → σ → σ → Prop} {ps qs : List π} {m : StateM σ α}

/-- What goes by some kinds of acts goes by more. -/
theorem Within.more (h : Within (Does act ps) m) (hsub : ps ⊆ qs) :
    Within (Does act qs) m :=
  h.mono fun _ _ hst => hst.mono hsub

/-- A change that is one act. -/
theorem Within.change_by (p : π) (hp : p ∈ ps) {f : σ → σ} (hf : ∀ s, act p s (f s)) :
    Within (Does act ps) (modify f : StateM σ PUnit) :=
  Within.change fun s => Does.single (hf s) hp

end Acts

/-! ### What a program does where something holds -/

/-- From a state of `P` to one `R`-related to it, still of `P`. -/
def Keeping (P : σ → Prop) (R : σ → σ → Prop) (s t : σ) : Prop :=
  P s → R s t ∧ P t

instance Keeping.isPreorder (P : σ → Prop) (R : σ → σ → Prop) [IsPreorder σ R] :
    IsPreorder σ (Keeping P R) where
  refl s hs := ⟨Std.Refl.refl s, hs⟩
  trans s t u hst htu hs :=
    have ht := hst hs
    have hu := htu ht.2
    ⟨IsTrans.trans s t u ht.1 hu.1, hu.2⟩

namespace Within

variable {P Q : σ → Prop} {R R' : σ → σ → Prop} {m : StateM σ α}

/-- What `R` keeps is there all along. -/
theorem keeping (hm : Within R m) (hP : ∀ s t, R s t → P s → P t) : Within (Keeping P R) m :=
  fun s hs => ⟨hm s, hP _ _ (hm s) hs⟩

/-- One more thing `R` keeps. -/
theorem along (hm : Within (Keeping P R) m) (hQ : ∀ s t, R s t → Q s → Q t) :
    Within (Keeping (fun s => P s ∧ Q s) R) m := by
  intro s hs
  obtain ⟨hr, hp⟩ := hm s hs.1
  exact ⟨hr, hp, hQ _ _ hr hs.2⟩

theorem widen (hm : Within (Keeping P R) m) (h : ∀ s t, R s t → R' s t) :
    Within (Keeping P R') m :=
  hm.mono fun _ _ hst hs => ⟨h _ _ (hst hs).1, (hst hs).2⟩

end Within

/-! ### Pre- and postconditions -/

/-- From a state of `P`, `m` ends with a value and a state of `Q`. -/
def Ensures (P : σ → Prop) (m : StateM σ α) (Q : α → σ → Prop) : Prop :=
  ∀ s, P s → Q (m.run s).1 (m.run s).2

namespace Ensures

variable {P P' : σ → Prop} {m : StateM σ α} {Q Q' : α → σ → Prop}

theorem pure {a : α} (h : ∀ s, P s → Q a s) : Ensures P (Pure.pure a : StateM σ α) Q :=
  h

theorem bind {f : α → StateM σ β} {T : β → σ → Prop} (hm : Ensures P m Q)
    (hf : ∀ a, Ensures (Q a) (f a) T) : Ensures P (m >>= f) T :=
  fun s hs => hf _ _ (hm s hs)

/-- What follows a read knows what was read to be the state it begins in. -/
theorem get_bind {f : σ → StateM σ β} {T : β → σ → Prop}
    (hf : ∀ s, Ensures (fun t => t = s ∧ P t) (f s) T) :
    Ensures P ((MonadState.get : StateM σ σ) >>= f) T :=
  fun s hs => hf s s ⟨rfl, hs⟩

theorem mono (hm : Ensures P m Q) (hP : ∀ s, P' s → P s) (hQ : ∀ a s, Q a s → Q' a s) :
    Ensures P' m Q' :=
  fun s hs => hQ _ _ (hm s (hP s hs))

end Ensures

/-- What goes within a relation ends where it leads. -/
theorem Within.ensures {R : σ → σ → Prop} {P Q : σ → Prop} {m : StateM σ α} (hm : Within R m)
    (h : ∀ s t, P s → R s t → Q t) : Ensures P m fun _ => Q :=
  fun s hs => h s _ hs (hm s)

end Library
