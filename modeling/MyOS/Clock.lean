import MyOS.Sched

/-!
# Waiting for the clock

`milli_delay` of `kernel/clock.c` and `waitfor` of `kernel/hd.c`. Both ask the system task for the
ticks again and again; the number of a reading counts the calls of `get_ticks`, the first of which
gives `t`.
-/

namespace MyOS

def hz : BitVec 32 := 100

/-- `(get_ticks() - t) * 1000 / HZ`, in integers of 32 bits. -/
def waited (now t : BitVec 32) : BitVec 32 := ((now - t) * 1000).sdiv hz

/-- The loop, from reading `i` on: the reading that ends it, and whether that is because what is
waited for is there. The time is looked at first. -/
def timedLoop (t timeout : BitVec 32) (getTicks : ℕ → BitVec 32) (ready : ℕ → Bool) :
    ℕ → ℕ → Except Fault (Bool × ℕ)
  | 0, _ => .error .spin
  | n + 1, i =>
    if (waited (getTicks i) t).slt timeout then
      if ready i then .ok (true, i) else timedLoop t timeout getTicks ready n (i + 1)
    else .ok (false, i)

/-- `milli_delay`, with `n` turns at most. -/
def milliDelay (getTicks : ℕ → BitVec 32) (n : ℕ) (milliSec : BitVec 32) :
    Except Fault (Bool × ℕ) :=
  timedLoop (getTicks 0) milliSec getTicks (fun _ => false) n 1

/-- `waitfor`, with `n` turns at most; `inByte i` is what the status register holds at turn `i`. -/
def waitfor (getTicks : ℕ → BitVec 32) (inByte : ℕ → BitVec 8) (n : ℕ)
    (mask val timeout : BitVec 32) : Except Fault (Bool × ℕ) :=
  timedLoop (getTicks 0) timeout getTicks (fun i => (inByte i).setWidth 32 &&& mask = val) n 1

/-! ## The clock in between -/

/-- `if (++ticks >= MAX_TICKS) ticks = 0;` -/
def nextTicks (ticks : Int) : Int := if maxTicks ≤ ticks + 1 then 0 else ticks + 1

/-- Whether a step is a call of `clock_handler`. -/
def SchedAct.isClock : SchedAct → Bool
  | .clock _ _ _ => true
  | _ => false

/-- Reading `i` is made in state `ss i`, after `r i` ticks. The process that waits gets to read the
ticks before each next one, and the clock goes on. -/
structure Readings (s₀ : Sched) (ss : ℕ → Sched) (r : ℕ → ℕ) : Prop where
  run : ∀ i, ∃ acts, Run (· = s₀) SchedStep acts (ss i) ∧ acts.countP SchedAct.isClock = r i
  first : r 0 = 0
  mono : ∀ i, r i ≤ r (i + 1)
  each : ∀ i, r (i + 1) ≤ r i + 1
  unbounded : ∀ e, ∃ i, e ≤ r i

/-- What `get_ticks` returns. -/
def getTicks (ss : ℕ → Sched) (i : ℕ) : BitVec 32 := BitVec.ofInt 32 (ss i).ticks

/-- A wait that ends as it is to: at the first reading, after that of `t`, at which the time has
passed or what is waited for is there; `b` tells whether it is there in time. -/
structure Timely (r : ℕ → ℕ) (timeout : BitVec 32) (ready : ℕ → Bool) (b : Bool) (i : ℕ) :
    Prop where
  pos : 1 ≤ i
  before : ∀ j, 1 ≤ j → j < i → 10 * (r j : Int) < timeout.toInt ∧ ready j = false
  ends : if b then 10 * (r i : Int) < timeout.toInt ∧ ready i = true
    else timeout.toInt ≤ 10 * (r i : Int)

end MyOS
