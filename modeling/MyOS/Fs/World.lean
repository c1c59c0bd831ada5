import MyOS.Fs.Main
import MyOS.Main

/-!
# The file system among processes

The runs of the file system: requests one after the other, each from a process there is. A fork
makes a process of a free entry of the table, as `do_fork` does, and an exit frees one.
-/

namespace MyOS

open Memory Block

structure FsWorld where
  fs : Fs
  live : Slot → Bool

/-- Whether the processes a request needs are there. -/
def FsRequest.isFrom (live : Slot → Bool) : FsRequest → Bool
  | .open caller _ _ => live caller
  | .close caller _ => live caller
  | .rdwt caller _ _ _ => live caller
  | .unlink _ _ => true
  | .stat _ _ => true
  | .fork parent child => live parent && ! live child
  | .exit pid => live pid

/-- The processes after it. -/
def FsRequest.lives (live : Slot → Bool) : FsRequest → Slot → Bool
  | .fork _ child => Function.update live child true
  | .exit pid => Function.update live pid false
  | _ => live

/-- A request, where it does not stop. -/
def fsWorldStep (w : FsWorld) (r : FsRequest) : Option FsWorld :=
  if r.isFrom w.live then (fsHandle w.fs r).toOption.map fun fs => ⟨fs, r.lives w.live⟩ else none

/-- `init_fs` has returned, on a partition of `nrSects` sectors; the processes are the tasks and the
native ones. -/
def FsWorldStart (nrSects : ℕ) (w : FsWorld) : Prop :=
  ∃ disk, initFs disk nrSects = .ok w.fs ∧
    w.live = fun p => decide (p.val < nrTasks + nrNativeProcs)

end MyOS
