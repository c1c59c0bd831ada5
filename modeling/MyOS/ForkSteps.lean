import MyOS.ForkExit

/-!
# A fork, statement by statement

`do_fork` with the other processes, the interrupts and the scheduler in between. A process asks for
it with `send_recv(BOTH, TASK_MM, ..)`, which is two traps: when the first one is done the process
runs, but another may be scheduled before it comes to the second.
-/

namespace MyOS

open Memory

/-- Where the memory manager is: in `do_fork` for `pid`, before its end, or elsewhere. -/
inductive MmPlace
  /-- It serves another request. -/
  | other
  /-- It is in the `RECEIVE` at the top of its loop, or behind it. -/
  | top
  | found (pid child : Slot)
  | copied (pid child : Slot)
  | named (pid child : Slot)
  | moved (pid child : Slot) (childBase : BitVec 32)
  | text (pid child : Slot) (childBase : BitVec 32)
  | built (pid child : Slot) (childBase : BitVec 32)
  | told (pid child : Slot)
  | heard (pid child : Slot)
  | replying (pid : Slot)
  deriving DecidableEq

/-- The child whose entry is in use, and whose segments are not set. -/
def MmPlace.halfBuilt : MmPlace → Option Slot
  | copied _ c | named _ c | moved _ c _ | text _ c _ => some c
  | _ => none

/-- The kernel, the place of the memory manager, and the processes between the two traps of a
`send_recv(BOTH, TASK_MM, ..)`, with their messages. -/
structure Forking where
  kernel : Kernel
  place : MmPlace
  between : Slot → Option Addr

/-- The statements of `do_fork`. -/
inductive Stmt
  /-- The loop for a free entry. -/
  | find
  /-- `*p = proc_table[pid]` -/
  | copy
  /-- `p_parent` and `p_name` -/
  | name
  /-- The checks of the segments, `alloc_mem` and `phys_copy`. -/
  | move
  /-- `init_descriptor` of the code segment. -/
  | text
  /-- `init_descriptor` of the data segment. -/
  | data
  deriving DecidableEq, Repr

/-- The sender and the text of the message that the memory manager got last, none where it was that
of an interrupt. -/
def gotLast : List Event → Option (Slot × Message)
  | [] => none
  | .copied p d m :: log => if d = taskMm then some (p, m) else gotLast log
  | .hardInt p _ :: log => if p = taskMm then none else gotLast log
  | _ :: log => gotLast log

/-- The process whose fork the memory manager is to serve. The file system, which only answers the
memory manager, asks for none. -/
def forkCaller (k : Kernel) : Option Slot :=
  match gotLast k.log with
  | some (pid, m) => if m.type = MsgType.fork.code ∧ pid ≠ taskFs then some pid else none
  | none => none

def childAttr : BitVec 16 := daLimit4k ||| da32 ||| daDpl privilegeUser

def childLimit : BitVec 32 := (procImageSizeDefault - 1) >>> limit4kShift

/-- A statement of `do_fork`, where the memory manager is. -/
def doForkStmt (mm : MmEnv) (s : Forking) : Stmt → MmPlace → Except Fault Forking
  | .find, .top =>
    match forkCaller s.kernel with
    | none => .error .assertion
    | some pid =>
      match findFree s.kernel with
      | none => .ok { s with place := .replying pid }
      | some c => do
        assert (nrTasks + nrNativeProcs ≤ c.val)
        .ok { s with place := .found pid c }
  | .copy, .found pid c =>
    .ok { s with
      kernel := s.kernel.set c fun _ => s.kernel.procTable pid
      place := .copied pid c
      -- the saved registers are part of the entry
      between := Function.update s.between c (s.between pid) }
  | .name, .copied pid c => do
    let name ← childName (s.kernel.procTable pid).pName c
    .ok { s with
      kernel := s.kernel.set c fun p => { p with pParent := proc2pid pid, pName := name }
      place := .named pid c }
  | .move, .named pid c => do
    let ldts := (s.kernel.procTable pid).ldts
    let callerTSize := segSize (ldts 0).limit (ldts 0)
    assert ((ldts 0).linear = (ldts 1).linear ∧ (ldts 0).limit = (ldts 1).limit ∧
      callerTSize = segSize (ldts 0).limit (ldts 1))
    let childBase ← allocMem mm c callerTSize
    .ok { s with
      kernel := { s.kernel with
        mem := memcpy s.kernel.mem childBase (ldts 0).linear callerTSize.toNat }
      place := .moved pid c childBase }
  | .text, .moved pid c childBase =>
    .ok { s with
      kernel := s.kernel.set c fun p =>
        { p with
          ldts := Function.update p.ldts 0
            (initDescriptor childBase childLimit (childAttr ||| daC)) }
      place := .text pid c childBase }
  | .data, .text pid c childBase =>
    .ok { s with
      kernel := s.kernel.set c fun p =>
        { p with
          ldts := Function.update p.ldts 1
            (initDescriptor childBase childLimit (childAttr ||| daDrw)) }
      place := .built pid c childBase }
  | _, _ => .error .assertion

/-- Where a trap of the memory manager takes it. In `do_fork` these are the exchange with the file
system and the message to the child, then comes the reply of `task_mm`. -/
def mmTrap (mm : MmEnv) (function : Function) (srcDest : Int) (m : Addr) :
    MmPlace → Option MmPlace
  | .other | .top =>
    if function = .receive ∧ srcDest = any ∧ m = mm.mmMsg then some .top else some .other
  | .built pid c _ =>
    if function = .send ∧ srcDest = proc2pid taskFs then some (.told pid c) else none
  | .told pid c =>
    if function = .receive ∧ srcDest = proc2pid taskFs then some (.heard pid c) else none
  | .heard pid c =>
    if function = .send ∧ srcDest = proc2pid c then some (.replying pid) else none
  | .replying pid =>
    if function = .send ∧ srcDest = proc2pid pid then some .other else none
  | _ => none

/-- The traps a process may make: the second one of the pair that it is in, or any but the first
one of a pair. Only the file system sends to the memory manager otherwise. -/
def MayTrap (s : Forking) (p : Slot) (function : Function) (srcDest : Int) (m : Addr) : Prop :=
  match s.between p with
  | some m' => function = .receive ∧ srcDest = proc2pid taskMm ∧ m = m'
  | none => function = .send → srcDest = proc2pid taskMm → p = taskFs

instance (s : Forking) (p : Slot) (function : Function) (srcDest : Int) (m : Addr) :
    Decidable (MayTrap s p function srcDest m) := by
  unfold MayTrap
  split <;> infer_instance

inductive ForkAct
  /-- The first trap of `send_recv(BOTH, TASK_MM, m)` by `p`. -/
  | ask (p : Slot) (m : Addr)
  /-- Any other trap, an interrupt, a write to memory. -/
  | kernel (a : Act)
  /-- Something the memory manager does for another request. -/
  | serve (a : MmAct)
  | stmt (x : Stmt)

/-- A step of the system in which `do_fork` is taken statement by statement: `task_mm` traps where
its loop has come to, and every process goes on in between. -/
def forkStep (mm : MmEnv) (s : Forking) : ForkAct → Option Forking
  | .ask p m =>
    if p ≠ taskMm ∧ s.between p = none then
      (step s.kernel (.sendrec p .send (proc2pid taskMm) m)).map fun k =>
        { s with kernel := k, between := Function.update s.between p (some m) }
    else none
  | .kernel (.sendrec p function srcDest m) =>
    if p = taskMm then do
      let place ← mmTrap mm function srcDest m s.place
      let k ← step s.kernel (.sendrec p function srcDest m)
      some { s with kernel := k, place }
    else if MayTrap s p function srcDest m then
      (step s.kernel (.sendrec p function srcDest m)).map fun k =>
        { s with kernel := k, between := Function.update s.between p none }
    else none
  | .kernel a => (step s.kernel a).map fun k => { s with kernel := k }
  | .serve a =>
    match s.place, a with
    | .other, .exit .. | .other, .adopt .. | .other, .free .. | .other, .wait ..
    | .top, .exit .. | .top, .adopt .. | .top, .free .. | .top, .wait .. =>
      (mmStep mm s.kernel a).map fun k => { s with kernel := k, place := .other }
    | _, _ => none
  | .stmt x =>
    if (s.kernel.procTable taskMm).pFlags = 0 then (doForkStmt mm s x s.place).toOption else none

def ForkStep (mm : MmEnv) (s : Forking) (a : ForkAct) (s' : Forking) : Prop :=
  forkStep mm s a = some s'

/-- The table `kernel_main` builds, with the memory manager before its loop. -/
def ForkStart (s : Forking) : Prop :=
  Start s.kernel ∧ s.place = .other ∧ ∀ p, s.between p = none

end MyOS
