import LocalSpace.Downloads

/-!
# Resuming a download

`fetch_file` of `models.rs`: one file into its part, from what the part holds already, over answers
that may be whole, partial, cut or refused. Any bytes that arrive set the count of fruitless tries
back, also where an answer starts the part over, so that answers that are cut for ever are asked for
for ever.
-/

namespace LocalSpace

namespace Models

namespace Resuming

/-- How the reading of an answer's body comes to its end: the server has sent all it has, the
connection drops, or the disk takes no more. -/
inductive Ending where
  | ends
  | drops
  | diskFails

/-- What comes of a request: no answer at all, or one with its status, the length it announces if it
does, and its body, piece by piece as it is read. -/
inductive Answer where
  | failed
  | answered (status : ℕ) (length : Option ℕ) (pieces : List (List UInt8)) (ending : Ending)

/-- What meets one request: whether the person has stopped the download before it, the answer, and
after how many pieces of it the person stops, if so. -/
structure Turn where
  stopped : Bool
  answer : Answer
  stopAfter : Option ℕ

/-- The part on the disk, if there is one, the file's length as far as it is known, the tries in a
row that brought nothing, and whether a part too long was thrown away. -/
structure Fetching where
  part : Option (List UInt8)
  announced : Option ℕ
  fruitless : ℕ
  begunAgain : Bool
  deriving DecidableEq

inductive Result where
  | ok (written : ℕ)
  | stopped
  | answeredOther (status : ℕ)
  | diskFailed
  | gaveUp
  | otherLength (written expected : ℕ)
  deriving DecidableEq

/-- The loop goes on, or `fetch_file` returns and leaves the part so. -/
inductive Outcome where
  | goes (s : Fetching)
  | returns (part : Option (List UInt8)) (result : Result)
  deriving DecidableEq

namespace Fetching

variable (s : Fetching)

@[grind =]
def held : List UInt8 :=
  s.part.getD []

/-- After the loop: a file of any other length is removed and refused. -/
@[grind =]
def finish : Outcome :=
  match s.announced with
  | some len =>
    if s.held.length ≠ len then .returns none (.otherLength s.held.length len)
    else .returns s.part (.ok s.held.length)
  | none => .returns s.part (.ok s.held.length)

/-- A try is over: the next comes after a pause, unless too many brought nothing. -/
def tried (attempts : ℕ) (progressed : Bool) : Outcome :=
  let fruitless := if progressed then 0 else s.fruitless + 1
  if attempts ≤ fruitless then .returns s.part .gaveUp
  else .goes { s with fruitless }

/-- The pieces that are read before the person stops, and whether they are all. -/
def taken (stopAfter : Option ℕ) (pieces : List (List UInt8)) : List (List UInt8) × Bool :=
  match stopAfter with
  | some k => if k < pieces.length then (pieces.take (k + 1), false) else (pieces, true)
  | none => (pieces, true)

/-- Where an answer with a body begins in the part. -/
def startOf (resumed : Bool) : ℕ :=
  if resumed then s.held.length else 0

@[grind =]
def kept (resumed : Bool) : List UInt8 :=
  if resumed then s.held else []

/-- The file's length as it is known after an answer. -/
@[grind =]
def known (resumed : Bool) (length : Option ℕ) : Option ℕ :=
  s.announced.or (length.map fun len => (s.startOf resumed + len) % 2 ^ 64)

/-- An answer with a body is written to the part: after it when it resumes, else in its place. -/
@[grind =]
def write (attempts : ℕ) (stopAfter : Option ℕ) (resumed : Bool) (length : Option ℕ)
    (pieces : List (List UInt8)) (ending : Ending) : Outcome :=
  let (read, all) := taken stopAfter pieces
  let part := s.kept resumed ++ read.flatten
  let after := { s with part := some part, announced := s.known resumed length }
  if !all then .returns after.part .stopped
  else match ending with
    | .diskFails => .returns after.part .diskFailed
    | .ends =>
      if after.announced.any fun len => part.length < len then
        after.tried attempts (s.startOf resumed < part.length)
      else after.finish
    | .drops => after.tried attempts (s.startOf resumed < part.length)

/-- The loop's body. -/
@[grind =]
def step (attempts : ℕ) (turn : Turn) : Outcome :=
  if turn.stopped then .returns s.part .stopped
  else if 0 < s.held.length ∧ s.announced = some s.held.length then s.finish
  else match turn.answer with
    | .failed => s.tried attempts false
    | .answered 206 length pieces ending =>
      s.write attempts turn.stopAfter true length pieces ending
    | .answered 200 length pieces ending =>
      s.write attempts turn.stopAfter false length pieces ending
    | .answered 416 _ _ _ =>
      if s.announced.any (fun len => len < s.held.length) ∧ !s.begunAgain then
        .goes { s with part := none, begunAgain := true }
      else s.finish
    | .answered status _ _ _ => .returns s.part (.answeredOther status)

/-- As `fetch_file` begins. -/
@[grind =]
def start (expected : Option FileCheck) (part : Option (List UInt8)) : Fetching :=
  ⟨part, expected.map FileCheck.bytes, 0, false⟩

end Fetching

/-- `fetch_file` after so many rounds of its loop. -/
@[grind =]
def run (attempts : ℕ) (turns : ℕ → Turn) (s : Fetching) : ℕ → Outcome
  | 0 => .goes s
  | n + 1 =>
    match run attempts turns s n with
    | .goes s => s.step attempts (turns n)
    | .returns part result => .returns part result

/-! ### When it ends -/

section Ends

variable {attempts : ℕ} {turns : ℕ → Turn} {s s' : Fetching} {turn : Turn} {n : ℕ}

theorem goes_of_finish : s.finish ≠ .goes s' := by
  rw [Fetching.finish]
  split
  · split_ifs <;> simp
  · simp

/-- A try goes on with its count set back, or one nearer the end. -/
theorem goes_of_tried {progressed : Bool} (h : s.tried attempts progressed = .goes s') :
    s'.begunAgain = s.begunAgain ∧
      (progressed = true ∨ s'.fruitless = s.fruitless + 1 ∧ s'.fruitless < attempts) := by
  rw [Fetching.tried] at h
  rcases progressed with _ | _
  · simp only [Bool.false_eq_true, if_false] at h
    split_ifs at h with hmany
    obtain rfl := Outcome.goes.inj h
    exact ⟨rfl, Or.inr ⟨rfl, Nat.lt_of_not_le hmany⟩⟩
  · simp only [if_true] at h
    split_ifs at h with hmany
    obtain rfl := Outcome.goes.inj h
    exact ⟨rfl, Or.inl rfl⟩

theorem taken_all {stopAfter : Option ℕ} {pieces : List (List UInt8)}
    (h : (Fetching.taken stopAfter pieces).2 = true) :
    (Fetching.taken stopAfter pieces).1 = pieces := by
  rcases stopAfter with _ | k
  · rfl
  · rw [Fetching.taken] at h ⊢
    split_ifs with hk
    · simp [hk] at h
    · rfl

theorem length_kept (resumed : Bool) : (s.kept resumed).length = s.startOf resumed := by
  rcases resumed with _ | _ <;> rfl

/-- Bytes come with an answer, and then it is cut: the connection drops, or all of it was shorter
than the file is known to be. -/
def Fetching.CutBody (s : Fetching) (resumed : Bool) (length : Option ℕ)
    (pieces : List (List UInt8)) (ending : Ending) : Prop :=
  pieces.flatten ≠ [] ∧ (ending = .drops ∨ ∃ len ∈ s.known resumed length,
    s.startOf resumed + pieces.flatten.length < len)

def Fetching.Cut (s : Fetching) (turn : Turn) : Prop :=
  ∃ length pieces ending,
    (turn.answer = .answered 206 length pieces ending ∧ s.CutBody true length pieces ending) ∨
    (turn.answer = .answered 200 length pieces ending ∧ s.CutBody false length pieces ending)

/-- The loop goes on after an answer with a body that was cut, or that brought nothing. -/
theorem goes_of_write {stopAfter : Option ℕ} {resumed : Bool} {length : Option ℕ}
    {pieces : List (List UInt8)} {ending : Ending}
    (h : s.write attempts stopAfter resumed length pieces ending = .goes s') :
    s'.begunAgain = s.begunAgain ∧ (s.CutBody resumed length pieces ending ∨
      s'.fruitless = s.fruitless + 1 ∧ s'.fruitless < attempts) := by
  rw [Fetching.write] at h
  dsimp only at h
  rcases hall : (Fetching.taken stopAfter pieces).2 with _ | _
  · simp [hall] at h
  rw [hall, taken_all hall] at h
  simp only [Bool.not_true, Bool.false_eq_true, if_false] at h
  have hlength : (s.kept resumed ++ pieces.flatten).length =
      s.startOf resumed + pieces.flatten.length := by
    rw [List.length_append, length_kept]
  rw [hlength] at h
  have hbrought : decide (s.startOf resumed < s.startOf resumed + pieces.flatten.length) = true →
      pieces.flatten ≠ [] := by
    intro hlt hnil
    simp [hnil] at hlt
  rcases ending with _ | _ | _
  · dsimp only at h
    split_ifs at h with hshort
    · obtain ⟨len, hlen, hlt⟩ := Option.any_eq_true _ _ |>.mp hshort
      obtain ⟨hbegun, hprogressed | hcount⟩ := goes_of_tried h
      · exact ⟨hbegun, Or.inl ⟨hbrought hprogressed, Or.inr ⟨len, hlen, by simpa using hlt⟩⟩⟩
      · exact ⟨hbegun, Or.inr hcount⟩
    · exact absurd h goes_of_finish
  · obtain ⟨hbegun, hprogressed | hcount⟩ := goes_of_tried h
    · exact ⟨hbegun, Or.inl ⟨hbrought hprogressed, Or.inl rfl⟩⟩
    · exact ⟨hbegun, Or.inr hcount⟩
  · simp at h

/-- A round that goes on is over an answer that was cut, or uses up a try or the one new beginning. -/
theorem goes_of_step (h : s.step attempts turn = .goes s') :
    s.Cut turn ∨
      (s'.begunAgain = s.begunAgain ∧ s'.fruitless = s.fruitless + 1 ∧ s'.fruitless < attempts) ∨
      (s.begunAgain = false ∧ s'.begunAgain = true ∧ s'.fruitless = s.fruitless) := by
  rw [Fetching.step] at h
  split at h
  · simp at h
  split at h
  · exact absurd h goes_of_finish
  split at h
  · obtain ⟨hbegun, hprogressed | hcount⟩ := goes_of_tried h
    · simp at hprogressed
    · exact Or.inr (Or.inl ⟨hbegun, hcount⟩)
  · rename_i length pieces ending hanswer
    obtain ⟨hbegun, hcut | hcount⟩ := goes_of_write h
    · exact Or.inl ⟨length, pieces, ending, Or.inl ⟨hanswer, hcut⟩⟩
    · exact Or.inr (Or.inl ⟨hbegun, hcount⟩)
  · rename_i length pieces ending hanswer
    obtain ⟨hbegun, hcut | hcount⟩ := goes_of_write h
    · exact Or.inl ⟨length, pieces, ending, Or.inr ⟨hanswer, hcut⟩⟩
    · exact Or.inr (Or.inl ⟨hbegun, hcount⟩)
  · split_ifs at h with hagain
    · obtain rfl := Outcome.goes.inj h
      exact Or.inr (Or.inr ⟨by simpa using hagain.2, rfl, rfl⟩)
    · exact absurd h goes_of_finish
  · simp at h

/-- What a round that is over no cut answer uses up. -/
def Fetching.left (attempts : ℕ) (s : Fetching) : ℕ :=
  (attempts - s.fruitless) + if s.begunAgain then 0 else 1

theorem left_lt (h : s.step attempts turn = .goes s') (hcut : ¬s.Cut turn) :
    s'.left attempts < s.left attempts := by
  rw [Fetching.left, Fetching.left]
  rcases goes_of_step h with h | ⟨hbegun, hcount, hlt⟩ | ⟨hbegun, hbegun', hcount⟩
  · exact absurd h hcut
  · rw [hbegun]
    omega
  · simp [hbegun, hbegun', hcount]

theorem run_returned {part : Option (List UInt8)} {result : Result}
    (h : run attempts turns s n = .returns part result) {m : ℕ} (hm : n ≤ m) :
    run attempts turns s m = .returns part result := by
  induction hm with
  | refl => exact h
  | step _ ih => rw [run, ih]

/-- **A download ends** exactly where from some round on no answer brings bytes and is then cut. -/
theorem download_ends (expected : Option FileCheck) (part : Option (List UInt8)) (attempts : ℕ)
    (turns : ℕ → Turn) :
    (∃ n part' result,
      run attempts turns (.start expected part) n = .returns part' result) ↔
    ∃ n, ∀ m ≥ n, ∀ s, run attempts turns (.start expected part) m = .goes s →
      ¬s.Cut (turns m) := by
  constructor
  · rintro ⟨n, part', result, h⟩
    refine ⟨n, fun m hm s hs => ?_⟩
    rw [run_returned h hm] at hs
    simp at hs
  · rintro ⟨n, hcut⟩
    have hends : ∀ k m s, n ≤ m → run attempts turns (.start expected part) m = .goes s →
        s.left attempts ≤ k → ∃ m part' result,
          run attempts turns (.start expected part) m = .returns part' result := by
      intro k
      induction k with
      | zero =>
        intro m s hm hs hleft
        rcases hstep : s.step attempts (turns m) with s' | ⟨part', result⟩
        · have hlt := left_lt hstep (hcut m hm s hs)
          omega
        · exact ⟨m + 1, part', result, by rw [run, hs]; exact hstep⟩
      | succ k ih =>
        intro m s hm hs hleft
        rcases hstep : s.step attempts (turns m) with s' | ⟨part', result⟩
        · have hlt := left_lt hstep (hcut m hm s hs)
          exact ih (m + 1) s' (by omega) (by rw [run, hs]; exact hstep) (by omega)
        · exact ⟨m + 1, part', result, by rw [run, hs]; exact hstep⟩
    rcases hrun : run attempts turns (.start expected part) n with s | ⟨part', result⟩
    · exact hends _ n s (Nat.le_refl n) hrun (Nat.le_refl _)
    · exact ⟨n, part', result, hrun⟩

end Ends

namespace Sample

/-- A server that knows no ranges and drops the connection after one byte of two. -/
def cutTurn : Turn :=
  ⟨false, .answered 200 (some 2) [[0]] .drops, none⟩

/-- One byte is here, and the next answer brings it again. -/
def cutState : Fetching :=
  ⟨some [0], some 2, 0, false⟩

theorem run_cut (n : ℕ) :
    run 8 (fun _ => cutTurn) (.start (some ⟨2, ""⟩) none) (n + 1) = .goes cutState := by
  induction n with
  | zero => decide
  | succ n ih =>
    rw [run, ih]
    decide

/-- The same byte is fetched for ever. -/
theorem fetched_for_ever : ¬∃ n part result,
    run 8 (fun _ => cutTurn) (.start (some ⟨2, ""⟩) none) n = .returns part result := by
  rintro ⟨n, part, result, h⟩
  have hgoes := run_cut n
  rw [run_returned h (Nat.le_succ n)] at hgoes
  simp at hgoes

end Sample

end Resuming

end Models

end LocalSpace
