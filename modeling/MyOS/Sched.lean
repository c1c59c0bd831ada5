import MyOS.Const
import MyOS.Lib.Run
import Mathlib.Logic.Function.Basic
import Mathlib.Logic.Relation
import Mathlib.Tactic.SplitIfs

/-!
# The scheduler

`schedule` of `kernel/proc.c` with `clock_handler` of `kernel/clock.c`. The kernel serves a process
with the interrupts on, so a tick may come between any two turns of the loops of `schedule`; the
clock then charges whoever `p_proc_ready` points to and goes back, since `k_reenter` is not zero.
-/

namespace MyOS

/-- `struct proc`, what the scheduler uses of it. -/
structure SchedProc where
  pFlags : BitVec 32
  ticks : Int
  priority : Int

/-- `p->ticks = p->priority` -/
def SchedProc.refill (x : SchedProc) : SchedProc := { x with ticks := x.priority }

/-- Where `schedule` is. -/
inductive SchedPlace
  /-- It has not been called. -/
  | idle
  /-- It looks at entry `i` of the table, with `greatest_ticks`. -/
  | scan (i : ℕ) (greatestTicks : Int)
  /-- It is to give entry `i` its ticks. -/
  | refill (i : ℕ)
  deriving DecidableEq

structure Sched where
  procTable : Slot → SchedProc
  pProcReady : Slot
  ticks : Int
  place : SchedPlace

def maxTicks : Int := 0x7FFFABCD

namespace Sched

def Runnable (s : Sched) (p : Slot) : Prop := (s.procTable p).pFlags = 0

instance (s : Sched) (p : Slot) : Decidable (s.Runnable p) := inferInstanceAs (Decidable (_ = _))

/-- A write to the fields of one process. -/
def set (s : Sched) (p : Slot) (f : SchedProc → SchedProc) : Sched :=
  { s with procTable := Function.update s.procTable p (f (s.procTable p)) }

@[simp] theorem set_procTable (s : Sched) (p q : Slot) (f : SchedProc → SchedProc) :
    (s.set p f).procTable q = if q = p then f (s.procTable p) else s.procTable q := by
  simp [set, Function.update_apply]

@[simp] theorem set_pProcReady (s : Sched) (p : Slot) (f : SchedProc → SchedProc) :
    (s.set p f).pProcReady = s.pProcReady := rfl

@[simp] theorem set_place (s : Sched) (p : Slot) (f : SchedProc → SchedProc) :
    (s.set p f).place = s.place := rfl

/-! ## The whole of schedule -/

/-- A turn of the loop that looks for the most ticks. -/
def look (s : Sched) (best : Int × Slot) (p : Slot) : Int × Slot :=
  if s.Runnable p ∧ best.1 < (s.procTable p).ticks then ((s.procTable p).ticks, p) else best

/-- A turn of the loop that gives out ticks. -/
def give (s : Sched) (p : Slot) : Sched :=
  if s.Runnable p then s.set p SchedProc.refill else s

/-- The first of the loops: `greatest_ticks` and `p_proc_ready` behind it. -/
def best (s : Sched) : Int × Slot :=
  (List.finRange (nrTasks + nrProcs)).foldl s.look (0, s.pProcReady)

/-- The second one. -/
def giveAll (s : Sched) : Sched := (List.finRange (nrTasks + nrProcs)).foldl give s

/-- `while(!greatest_ticks)`, with `refills` turns at most that find no process. -/
def scheduleLoop : ℕ → Sched → Except Fault Sched
  | 0, s => if s.best.1 ≠ 0 then .ok { s with pProcReady := s.best.2 } else .error .spin
  | refills + 1, s =>
    if s.best.1 ≠ 0 then .ok { s with pProcReady := s.best.2 }
    else scheduleLoop refills { s with pProcReady := s.best.2 }.giveAll

/-! ## Its steps -/

/-- A step of `schedule`. -/
def advance (s : Sched) : Option Sched :=
  match s.place with
  | .idle => none
  | .scan i g =>
    if h : i < nrTasks + nrProcs then
      let best := s.look (g, s.pProcReady) ⟨i, h⟩
      some { s with pProcReady := best.2, place := .scan (i + 1) best.1 }
    else if g ≠ 0 then some { s with place := .idle }
    else some { s with place := .refill 0 }
  | .refill i =>
    if h : i < nrTasks + nrProcs then some { s.give ⟨i, h⟩ with place := .refill (i + 1) }
    else some { s with place := .scan 0 0 }

/-- `if(p_proc_ready->ticks) p_proc_ready->ticks--;` -/
def charge (s : Sched) : Sched :=
  if (s.procTable s.pProcReady).ticks ≠ 0
    then s.set s.pProcReady fun x => { x with ticks := x.ticks - 1 } else s

/-- `inform_int(TASK_TTY)` where the terminal task waits for an interrupt. -/
def wakeTty (s : Sched) : Sched :=
  s.set taskTty fun x => { x with pFlags := x.pFlags &&& ~~~receiving }

/-- `clock_handler`, in the kernel or not. `wakes` tells whether a key has been pressed and the
terminal task waits for it. -/
def clockHandler (s : Sched) (reenter wakes : Bool) : Sched :=
  let s := { s with ticks := if maxTicks ≤ s.ticks + 1 then 0 else s.ticks + 1 }.charge
  let s := if wakes then s.wakeTty else s
  if reenter then s
  else if 0 < (s.procTable s.pProcReady).ticks then s
  else { s with place := .scan 0 0 }

end Sched

inductive SchedAct
  /-- A tick of the clock, and whom it is charged to. -/
  | clock (reenter wakes : Bool) (charged : Option Slot)
  /-- A step of `schedule`. -/
  | advance
  /-- `block(p)` calls `schedule`. -/
  | block (p : Slot)
  /-- A write to the flags of a process, which blocks it or lets it go. -/
  | flags (p : Slot) (pFlags : BitVec 32)
  /-- `do_fork` makes a free entry a copy of another. -/
  | fork (child parent : Slot)
  deriving DecidableEq

/-- Whom a tick is charged to. -/
def Sched.charged (s : Sched) : Option Slot :=
  if (s.procTable s.pProcReady).ticks ≠ 0 then some s.pProcReady else none

/-- The kernel is re-entered while it is in `schedule`, which it is in only once. -/
def schedStep (s : Sched) : SchedAct → Option Sched
  | .clock reenter wakes charged =>
    if charged = s.charged ∧ (s.place ≠ .idle → reenter = true)
      then some (s.clockHandler reenter wakes) else none
  | .advance => s.advance
  | .block p =>
    if ¬ s.Runnable p ∧ s.place = .idle then some { s with place := .scan 0 0 } else none
  | .flags p pFlags => some (s.set p fun x => { x with pFlags })
  | .fork child parent =>
    if (s.procTable child).pFlags = freeSlot
      then some (s.set child fun _ => s.procTable parent) else none

def SchedStep (s : Sched) (a : SchedAct) (s' : Sched) : Prop := schedStep s a = some s'

/-- Whether a step is a tick that is charged to `p`. -/
def SchedAct.chargedTo (p : Slot) : SchedAct → Bool
  | .clock _ _ charged => charged = some p
  | _ => false

/-- How often a process has been charged. -/
def charges (p : Slot) (t : List SchedAct) : ℕ := t.countP (SchedAct.chargedTo p)

/-- `schedule` is about to give `p` its ticks. -/
def Sched.Refills (s : Sched) (p : Slot) : Prop := s.place = .refill p ∧ s.Runnable p

/-- A step, other than the one that gives `p` its ticks, that leaves it runnable. -/
def BetweenRefills (p : Slot) (s : Sched) (a : SchedAct) (s' : Sched) : Prop :=
  SchedStep s a s' ∧ ¬ (a = .advance ∧ s.Refills p) ∧ s'.Runnable p

end MyOS
