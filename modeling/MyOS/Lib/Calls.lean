import Mathlib.Data.List.Basic

/-!
# Calls and answers

The history of the calls to a server, newest first: who calls for what, whom the server answers and
in which state, and who gets what back. Where each caller waits for the answer before it goes on,
and the server answers only those who wait, what comes back is the answer in a state the server has
had in between.
-/

namespace Calls

variable {C Q R S : Type*}

inductive Event (C Q R S : Type*)
  | call (c : C) (q : Q)
  | serve (c : C) (s : S)
  | ret (c : C) (r : R)
  deriving DecidableEq

def Event.caller : Event C Q R S → C
  | .call c _ => c
  | .serve c _ => c
  | .ret c _ => c

/-- How far a caller has got. -/
inductive Status (Q R : Type*)
  | idle
  | called (q : Q)
  | served (r : R)
  deriving DecidableEq

variable (answer : S → C → Q → R)

def Status.next : Status Q R → Event C Q R S → Status Q R
  | _, .call _ q => .called q
  | .called q, .serve c s => .served (answer s c q)
  | x, .serve _ _ => x
  | _, .ret _ _ => .idle

variable [DecidableEq C]

def status (c : C) : List (Event C Q R S) → Status Q R
  | [] => .idle
  | e :: log => if e.caller = c then (status c log).next answer e else status c log

/-- What may come next. -/
def Allowed (log : List (Event C Q R S)) : Event C Q R S → Prop
  | .call c _ => status answer c log = .idle
  | .serve c _ => ∃ q, status answer c log = .called q
  | .ret c r => status answer c log = .served r

def Legal : List (Event C Q R S) → Prop
  | [] => True
  | e :: log => Allowed answer log e ∧ Legal log

variable {answer} {c : C} {q : Q} {r : R} {log : List (Event C Q R S)}

theorem status_of_ne {e : Event C Q R S} (h : e.caller ≠ c) :
    status answer c (e :: log) = status answer c log := if_neg h

theorem status_call : status answer c (.call c q :: log) = .called q := if_pos rfl

theorem status_serve {s : S} (h : status answer c log = .called q) :
    status answer c (.serve c s :: log) = .served (answer s c q) := by
  refine (if_pos rfl).trans ?_
  rw [h]
  rfl

theorem status_ret : status answer c (.ret c r :: log) = .idle := by
  refine (if_pos rfl).trans ?_
  cases status answer c log <;> rfl

/-- Since its call a caller that is to be served has done nothing. -/
theorem Legal.of_called : ∀ {log : List (Event C Q R S)}, Legal answer log →
    status answer c log = .called q → ∃ a log', log = a ++ .call c q :: log' ∧
      (∀ e ∈ a, e.caller ≠ c) ∧ status answer c log' = .idle
  | [], _, h => by cases h
  | e :: log, hl, h => by
    by_cases he : e.caller = c
    · subst he
      cases e with
      | call c q' =>
        rw [show (Event.call c q').caller = c from rfl, status_call] at h
        cases h
        exact ⟨[], log, rfl, fun e he => absurd he List.not_mem_nil, hl.1⟩
      | serve c s =>
        obtain ⟨q', hq⟩ := hl.1
        rw [show (Event.serve c s).caller = c from rfl, status_serve hq] at h
        cases h
      | ret c r =>
        rw [show (Event.ret c r).caller = c from rfl, status_ret] at h
        cases h
    · rw [status_of_ne he] at h
      obtain ⟨a, log', rfl, ha, hidle⟩ := hl.2.of_called h
      exact ⟨e :: a, log', rfl, List.forall_mem_cons.2 ⟨he, ha⟩, hidle⟩

theorem Legal.of_served : ∀ {log : List (Event C Q R S)}, Legal answer log →
    status answer c log = .served r → ∃ a s log' q, log = a ++ .serve c s :: log' ∧
      (∀ e ∈ a, e.caller ≠ c) ∧ status answer c log' = .called q ∧ r = answer s c q ∧
        Legal answer log'
  | [], _, h => by cases h
  | e :: log, hl, h => by
    by_cases he : e.caller = c
    · subst he
      cases e with
      | call c q' =>
        rw [show (Event.call c q').caller = c from rfl, status_call] at h
        cases h
      | serve c s =>
        obtain ⟨q', hq⟩ := hl.1
        rw [show (Event.serve c s).caller = c from rfl, status_serve hq] at h
        cases h
        exact ⟨[], s, log, q', rfl, fun e he => absurd he List.not_mem_nil, hq, rfl, hl.2⟩
      | ret c r' =>
        rw [show (Event.ret c r').caller = c from rfl, status_ret] at h
        cases h
    · rw [status_of_ne he] at h
      obtain ⟨a, s, log', q', rfl, ha, hcalled, hr, hl'⟩ := hl.2.of_served h
      exact ⟨e :: a, s, log', q', rfl, List.forall_mem_cons.2 ⟨he, ha⟩, hcalled, hr, hl'⟩

theorem Legal.suffix : ∀ {a : List (Event C Q R S)}, Legal answer (a ++ log) → Legal answer log
  | [], h => h
  | _ :: _, h => Legal.suffix h.2

/-- A call comes back once, with what the server has answered once in between. -/
theorem Legal.returned {later : List (Event C Q R S)}
    (h : Legal answer (later ++ .ret c r :: log)) :
    ∃ a s b q log', log = a ++ .serve c s :: (b ++ .call c q :: log') ∧
      (∀ e ∈ a ++ b, e.caller ≠ c) ∧ r = answer s c q ∧ status answer c log' = .idle := by
  obtain ⟨hret, hl⟩ := h.suffix
  obtain ⟨a, s, log₁, q, rfl, ha, hcalled, hr, hl₁⟩ := hl.of_served hret
  obtain ⟨b, log', rfl, hb, hidle⟩ := hl₁.of_called hcalled
  exact ⟨a, s, b, q, log', rfl, List.forall_mem_append.2 ⟨ha, hb⟩, hr, hidle⟩

end Calls
