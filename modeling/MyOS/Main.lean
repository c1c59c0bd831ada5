import MyOS.Proc
import MyOS.Lib.Run
import Mathlib.Data.Fin.VecNotation

/-!
# The table `kernel_main` builds, and the runs from it

A process that runs may trap into the kernel for a message, an interrupt may be announced to a
task, and a process may write to memory. The kernel takes each trap and each interrupt as one step.
-/

namespace MyOS

open Memory

/-- The names in `task_table` and `user_proc_table`. -/
def taskNames : List (List Char) :=
  ["tty", "sys", "hd", "fs", "mm", "INIT", "TestA", "TestB", "TestC"].map String.toList

def daDpl (priv : BitVec 16) : BitVec 16 := priv <<< 5

/-- The flat segment the loader puts in `gdt`. -/
def gdtFlat (attr : BitVec 16) : Descriptor :=
  initDescriptor 0 0xfffff (attr ||| da32 ||| daLimit4k)

/-- The two descriptors of a task or a native process; `limit` is where the kernel's image ends. -/
def nativeLdts (limit : BitVec 32) (i : Slot) : Fin 2 → Descriptor :=
  let priv := daDpl (if i.val < nrTasks then privilegeTask else privilegeUser)
  if i = init then
    ![initDescriptor 0 (limit >>> limit4kShift) (da32 ||| daLimit4k ||| daC ||| priv),
      initDescriptor 0 (limit >>> limit4kShift) (da32 ||| daLimit4k ||| daDrw ||| priv)]
  else
    ![{ gdtFlat daCr with attr1 := (daC ||| priv).setWidth 8 },
      { gdtFlat daDrw with attr1 := (daDrw ||| priv).setWidth 8 }]

/-- An entry of the table: `init_prot` zeroes it, `kernel_main` fills those in use. -/
def kernelMainProc (limit : BitVec 32) (i : Slot) : Proc :=
  if nrTasks + nrNativeProcs ≤ i.val then
    { ldts := fun _ => ⟨0, 0, 0, 0, 0, 0⟩, pName := [], pFlags := freeSlot, pMsg := 0,
      pRecvfrom := 0, pSendto := 0, hasIntMsg := false, qSending := none, nextSending := none,
      pParent := 0, exitStatus := 0 }
  else
    { ldts := nativeLdts limit i, pName := taskNames.getD i.val [], pFlags := 0, pMsg := 0,
      pRecvfrom := noTask, pSendto := noTask, hasIntMsg := false, qSending := none,
      nextSending := none, pParent := noTask, exitStatus := 0 }

def kernelMain (mem : Mem) (limit : BitVec 32) : Kernel :=
  restart { procTable := kernelMainProc limit, mem, kReenter := 0, log := [] }

inductive Act
  | sendrec (p : Slot) (function : Function) (srcDest : Int) (m : Addr)
  | informInt (taskNr : Slot)
  | user (mem : Mem)

/-- A step, where it can be taken and does not stop. -/
def step (k : Kernel) : Act → Option Kernel
  | .sendrec p function srcDest m =>
    if (k.procTable p).pFlags = 0 then (sendrec k p function srcDest m).toOption else none
  | .informInt taskNr => (informInt k taskNr).toOption
  | .user mem => some { k with mem }

def Step (k : Kernel) (a : Act) (k' : Kernel) : Prop := step k a = some k'

def Start (k : Kernel) : Prop := ∃ mem limit, k = kernelMain mem limit

end MyOS
