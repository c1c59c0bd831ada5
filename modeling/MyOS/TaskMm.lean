import MyOS.ForkExit

/-!
# The memory manager's loop

One turn of `task_mm` for a process that asks for a fork, an exit or a wait: the memory manager
waits for a message, the process sends its own and waits for the reply, the memory manager does
what it is asked for.
-/

namespace MyOS

open Memory

inductive Request
  | fork
  | exit (status : BitVec 32)
  | wait
  deriving DecidableEq, Repr

def Request.isExit : Request → Bool
  | .exit _ => true
  | _ => false

/-- A request that has been served: who made it, the child it made and the reports it sent. -/
structure Done where
  pid : Slot
  request : Request
  child : Option Slot
  reports : List Report
  deriving DecidableEq, Repr

/-- A process with `m` for its message calls `send_recv(BOTH, TASK_MM, &msg)`. -/
def ask (mm : MmEnv) (k : Kernel) (pid : Slot) (m : Addr) : Except Fault Kernel := do
  let k ← sendrec k taskMm .receive any mm.mmMsg
  let k ← sendrec k pid .send (proc2pid taskMm) m
  sendrec k pid .receive (proc2pid taskMm) m

/-- The `switch` of `task_mm`. -/
def serve (mm : MmEnv) (k : Kernel) (pid : Slot) : Request → Except Fault (Done × Kernel)
  | .fork => do
    let (child, k) ← doFork mm k pid
    .ok (⟨pid, .fork, child, []⟩, k)
  | .exit status => do
    let (reports, k) ← doExit mm k pid status
    .ok (⟨pid, .exit status, none, reports⟩, k)
  | .wait => do
    let (reports, k) ← doWait mm k pid
    .ok (⟨pid, .wait, none, reports⟩, k)

def turn (mm : MmEnv) (k : Kernel) (pid : Slot) (request : Request) (m : Addr) :
    Except Fault (Done × Kernel) := do
  let k ← ask mm k pid m
  serve mm k pid request

/-- Who may ask: a process that runs, `INIT` or one that was forked; `INIT` never exits. -/
def MayAsk (k : Kernel) (pid : Slot) (request : Request) : Prop :=
  (k.procTable pid).pFlags = 0 ∧
    (nrTasks + nrNativeProcs ≤ pid.val ∨ pid = init ∧ request.isExit = false)

instance (k : Kernel) (pid : Slot) (request : Request) : Decidable (MayAsk k pid request) :=
  inferInstanceAs (Decidable (_ ∧ _))

/-- A turn that does not stop, for any process that runs but the memory manager itself. -/
def TurnOf (mm : MmEnv) (k : Kernel) (d : Done) (k' : Kernel) : Prop :=
  (k.procTable d.pid).pFlags = 0 ∧ d.pid ≠ taskMm ∧
    ∃ m, m ≠ 0 ∧ turn mm k d.pid d.request m = .ok (d, k')

/-- A turn that does not stop. -/
def Turn (mm : MmEnv) (k : Kernel) (d : Done) (k' : Kernel) : Prop :=
  MayAsk k d.pid d.request ∧ ∃ m, m ≠ 0 ∧ turn mm k d.pid d.request m = .ok (d, k')

end MyOS
