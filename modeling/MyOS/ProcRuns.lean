import MyOS.DoExec

/-!
# Runs with fork and exec

What the memory manager does to the processes, with what a request stores in `p_name` and the size
of the segment that it copies. An exec is one step here: the memory manager serves nobody else
before it is done, and the file system it asks may be in any state.
-/

namespace MyOS

open Memory

/-- The string that `do_fork` prints to `p_name`. -/
def forkedName (parent : List Char) (child : Slot) : List Char :=
  parent ++ '_' :: Nat.toDigits 10 child.val

/-- What `do_exec` copies to `p_name`, where it gets that far: none where it returns -1 before. -/
def execName (mm : MmEnv) (fs : Fs) (k : Kernel) (src : Slot) :
    Except Fault (Option (List Byte)) := do
  let path ← getPath (userMem k src) (Message.load k.mem mm.mmMsg)
  match ← execRead fs k.mem path with
  | (none, _) => .ok none
  | (some _, _, mem) => do
    let mem ← loadSegments k src procImageSizeDefault (2 ^ 16) 0 mem
    let _ ← copyArgs k src procImageSizeDefault (Message.load mem mm.mmMsg) mem
    .ok (some path)

/-- The bytes of a segment. -/
def Descriptor.size (d : Descriptor) : ℕ :=
  (d.limit.toNat + 1) * if d.limit4k then 4096 else 1

inductive PmAct
  /-- `child` is the new process, none where the table is full. -/
  | fork (pid : Slot) (child : Option Slot)
  /-- `path` is what is stored in `p_name`, if anything is. -/
  | exec (fs : Fs) (src : Slot) (path : Option (List Byte))
  /-- Any other step of a process, of an interrupt or of the memory manager. -/
  | other (a : MmAct)

def PmStep (mm : MmEnv) (k : Kernel) : PmAct → Kernel → Prop
  | .fork pid child, k' =>
    (k.procTable taskMm).pFlags = 0 ∧ forkProc mm k pid = .ok (child, k')
  | .exec fs src path, k' =>
    (k.procTable taskMm).pFlags = 0 ∧ execName mm fs k src = .ok path ∧
      ∃ retval fs', doExec mm fs k src = .ok (retval, fs', k')
  | .other a, k' => (∀ pid, a ≠ .fork pid) ∧ MmStep mm k a k'

/-- A process that is in the table. -/
def Live (k : Kernel) (p : Slot) : Prop := (k.procTable p).pFlags &&& freeSlot = 0

instance (k : Kernel) (p : Slot) : Decidable (Live k p) := inferInstanceAs (Decidable (_ = _))

/-- Where a name comes from: the length of the one that was given, by the tables of the kernel or by
an exec, and the processes forked since, the newest first. -/
structure Lineage where
  base : ℕ
  forks : List Slot

/-- A fork puts `_` and the number of the child behind the name. -/
def Lineage.length (x : Lineage) : ℕ :=
  x.base + (x.forks.map fun c => 1 + (Nat.toDigits 10 c.val).length).sum

def Lineage.fork (x : Lineage) (child : Slot) : Lineage := ⟨x.base, child :: x.forks⟩

/-- The lineage of each process after the requests of a run, which has the newest first. -/
def lineage : List PmAct → Slot → Lineage
  | [], p => ⟨(taskNames.getD p.val []).length, []⟩
  | .fork pid (some c) :: t, p => if p = c then (lineage t pid).fork c else lineage t p
  | .exec _ src (some path) :: t, p => if p = src then ⟨path.length, []⟩ else lineage t p
  | _ :: t, p => lineage t p

end MyOS
