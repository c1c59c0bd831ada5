import Mathlib.Algebra.Ring.Nat

/-!
# Constants

The constants of `const.h` and `proc.h`, and how a run of the kernel or of a server stops.
-/

namespace MyOS

abbrev nrTasks : ℕ := 5
abbrev nrProcs : ℕ := 32
abbrev nrNativeProcs : ℕ := 4

/-- An entry of `proc_table`, or a pointer to one. -/
abbrev Slot := Fin (nrTasks + nrProcs)

/-! Indices are written as numbers: of `proc_table`, of an LDT, of a terminal, of the two input
buffers and of `fd_desc_table`. -/

instance slot_neZero : NeZero (nrTasks + nrProcs) := ⟨by decide⟩
instance ldt_neZero : NeZero 2 := ⟨by decide⟩
instance minor_neZero : NeZero 3 := ⟨by decide⟩
instance kbIn_neZero : NeZero 32 := ⟨by decide⟩
instance ttyIn_neZero : NeZero 256 := ⟨by decide⟩
instance entry_neZero : NeZero 64 := ⟨by decide⟩

/-! ## `p_flags` -/

def sending : BitVec 32 := 0x02
def receiving : BitVec 32 := 0x04
def waiting : BitVec 32 := 0x08
def hanging : BitVec 32 := 0x10
def freeSlot : BitVec 32 := 0x20

/-! ## Process numbers -/

def interrupt : Int := -10
def any : Int := nrTasks + nrProcs + 10
def noTask : Int := nrTasks + nrProcs + 20

def taskTty : Slot := 0
def taskSys : Slot := 1
def taskFs : Slot := 3
def taskMm : Slot := 4
/-- `INIT`, the first process of `user_proc_table`. -/
def init : Slot := 5

/-! ## System calls and message types -/

/-- What `sendrec` is asked for; any other number is a panic. -/
inductive Function
  | send
  | receive
  | other
  deriving DecidableEq, Repr

inductive MsgType
  | hardInt | getTicks | getPid
  | open | close | read | write | lseek | stat | unlink
  | syscallRet
  | suspendProc | resumeProc
  | fork | exit | wait | exec
  | devOpen | devClose | devRead | devWrite | devIoctl
  deriving DecidableEq, Repr

/-- The number `enum msgtype` gives a message type. -/
def MsgType.code : MsgType → BitVec 32
  | hardInt => 1 | getTicks => 2 | getPid => 3
  | «open» => 4 | close => 5 | read => 6 | write => 7 | lseek => 8 | stat => 9 | unlink => 10
  | syscallRet => 11
  | suspendProc => 12 | resumeProc => 13
  | fork => 14 | exit => 15 | wait => 16 | exec => 17
  | devOpen => 1001 | devClose => 1002 | devRead => 1003 | devWrite => 1004 | devIoctl => 1005

/-! ## Stops -/

/-- Why a computation stops: a failed `assert` (which spins), a `panic`, an access outside the
object a pointer points into, or a loop that never ends. -/
inductive Fault
  | assertion
  | panic
  | wild
  | spin
  deriving DecidableEq, Repr

def assert (c : Prop) [Decidable c] : Except Fault Unit :=
  if c then .ok () else .error .assertion

@[simp] theorem assert_eq_ok {c : Prop} [Decidable c] {u : Unit} : assert c = .ok u ↔ c := by
  unfold assert
  split <;> simp_all

theorem assert_of {c : Prop} [Decidable c] (h : c) : assert c = .ok () := if_pos h

@[simp] theorem ok_bind {α β : Type} (a : α) (f : α → Except Fault β) :
    (Except.ok a : Except Fault α) >>= f = f a := rfl

/-- A sequence that ends well ran its first part well. -/
theorem bind_eq_ok {α β : Type} {x : Except Fault α} {f : α → Except Fault β} {b : β} :
    x >>= f = .ok b ↔ ∃ a, x = .ok a ∧ f a = .ok b := by
  cases x with
  | error e => simp [bind, Except.bind]
  | ok a => simp [bind, Except.bind]

theorem assert_bind_eq_ok {β : Type} {c : Prop} [Decidable c] {f : Unit → Except Fault β} {b : β} :
    assert c >>= f = .ok b ↔ c ∧ f () = .ok b := by
  rw [bind_eq_ok]
  exact ⟨fun ⟨_, hc, h⟩ => ⟨assert_eq_ok.1 hc, h⟩, fun ⟨hc, h⟩ => ⟨(), assert_of hc, h⟩⟩

theorem toOption_eq_some {α : Type} {x : Except Fault α} {a : α} :
    x.toOption = some a ↔ x = .ok a := by
  cases x <;> simp [Except.toOption]

/-- What a computation that ends well ends with. -/
theorem exists_ok_of_any {ε α : Type} {x : Except ε α} {p : α → Bool}
    (h : x.toOption.any p = true) : ∃ a, x = .ok a ∧ p a = true := by
  cases x with
  | error e => exact nomatch h
  | ok a => exact ⟨a, rfl, h⟩

end MyOS
