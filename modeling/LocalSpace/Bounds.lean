import LocalSpace.Sample
import LocalSpace.Steps

/-!
# How much one turn does

The model is asked once for every step a turn makes, and once more after a refused call: at most
`maxAgentSteps + 1` times (`asked_le`). A step makes all the calls the model proposes in it, so a
turn makes no more calls than were proposed, and not necessarily at most `maxAgentSteps`: that
many where the replies to it proposed no more (`bounded_run`); one reply with more of them has
them all made (`many_called`).
-/

namespace LocalSpace

open Library

variable {H : Host} {ok : Core H → Message → Prop} {c : Core H}

namespace Core

/-- A turn made at most `maxAgentSteps` tool calls, and the model was asked for it at most once
more. -/
def Bounded (c : Core H) (id : Nat) : Prop :=
  callsOf c.deeds id ≤ maxAgentSteps ∧ asksOf c.deeds id ≤ maxAgentSteps + 1

/-- However the model answers, it is asked at most once more than a turn makes steps. -/
theorem asked_le (h : Reach ok c) (id : Nat) : asksOf c.deeds id ≤ maxAgentSteps + 1 :=
  (ready_of_reach h).1.counted.asks id

/-- Every call a turn makes is one of those proposed to it, and made once. -/
theorem called_le (h : Reach ok c) (id : Nat) : callsOf c.deeds id ≤ proposedOf c.deeds id :=
  (ready_of_reach h).1.counted.calls id

/-- **A turn is bounded** in every state of every run in which the replies to it propose no more
calls than a turn may make. -/
theorem bounded_run (h : Reach ok c) (id : Nat) (hproposed : proposedOf c.deeds id ≤ maxAgentSteps) :
    c.Bounded id :=
  ⟨(called_le h id).trans hproposed, asked_le h id⟩

/-- Ana's answer makes the one call its first reply proposes, and asks again. -/
def askedTwice : Core Sample.host :=
  (system Sample.host).run (.start (Sample.server 1) [Sample.staged Sample.notes])
    (Sample.signUp ++ [.request Sample.ana (.sendMessage "hello" none []),
      .read 0 (Sample.calls "notes.peek"), .posted 0, .posted 0])

theorem bounded_run_twice : askedTwice.deeds = [.asked 1, .proposed 1 1, .called 1, .asked 1] ∧
    askedTwice.Bounded 1 :=
  have hreach : Reach (fun _ _ => True) askedTwice :=
    ⟨_, _, System.runs_of_list (by decide +kernel)⟩
  ⟨by decide +kernel, bounded_run hreach 1 (by decide +kernel)⟩

/-- A model step that ended with so many calls of a tool. -/
def callsMany (n : Nat) (tool : String) : StepEnd :=
  ⟨.ok ⟨"", List.replicate n ⟨"call", tool, .obj []⟩, 0, false⟩, "", "", none, true, 0⟩

/-- One reply to Ana proposes one call more than a turn may make. -/
def calledMany : Core Sample.host :=
  (system Sample.host).run (.start (Sample.server 1) [Sample.staged Sample.notes])
    (Sample.signUp ++ [.request Sample.ana (.sendMessage "hello" none []),
      .read 0 (callsMany (maxAgentSteps + 1) "notes.peek")] ++
        List.replicate (maxAgentSteps + 1) (.posted 0))

/-- They are all made. -/
theorem many_called : ¬∀ c : Core Sample.host, c.Reach (fun _ _ => True) → ∀ id, c.Bounded id := by
  intro h
  have hreach : Reach (fun _ _ => True) calledMany :=
    ⟨_, _, System.runs_of_list (by decide +kernel)⟩
  have hcalled : callsOf calledMany.deeds 1 = maxAgentSteps + 1 := by decide +kernel
  have hbound := (h calledMany hreach 1).1
  omega

end Core

end LocalSpace
