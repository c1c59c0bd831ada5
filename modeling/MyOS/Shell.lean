import MyOS.Untar
import MyOS.Exec

/-!
# The line of a command

The part of `shabby_shell` in `kernel/main.c` from a line in `rdbuf` to the path that `open` is
called with. A pointer is null or an offset in `rdbuf`, and of `argv` what has been stored is kept;
an access outside of either is a fault, and so is one through the null pointer.
-/

namespace MyOS

open Memory Block

def rdbufSize : ℕ := 128

structure ShellScan where
  rdbuf : Bytes
  /-- `argv[0]` to `argv[argc - 1]` -/
  argv : List (Option ℕ)
  p : ℕ
  s : ℕ
  word : Bool

/-- `argv[argc] = a` -/
def ShellScan.store (t : ShellScan) (a : Option ℕ) : Except Fault ShellScan :=
  if t.argv.length < procOriginStack then .ok { t with argv := t.argv ++ [a] } else .error .wild

/-- The body of the loop. -/
def shellTurn (t : ShellScan) : Except Fault ShellScan := do
  let t := if t.rdbuf t.p ≠ ascii ' ' ∧ t.rdbuf t.p ≠ 0 ∧ t.word = false then
      { t with s := t.p, word := true } else t
  let t ← if (t.rdbuf t.p = ascii ' ' ∨ t.rdbuf t.p = 0) ∧ t.word = true then do
      let t ← t.store (some t.s)
      .ok { t with word := false, rdbuf := put t.rdbuf t.p 0 }
    else .ok t
  .ok { t with p := t.p + 1 }

/-- The `do` loop, in `n` turns at most. -/
def shellLoop : ℕ → ShellScan → Except Fault ShellScan
  | 0, _ => .error .spin
  | n + 1, t =>
    if rdbufSize ≤ t.p then .error .wild
    else do
      let ch := t.rdbuf t.p
      let t ← shellTurn t
      if ch ≠ 0 then shellLoop n t else .ok t

/-- From `rdbuf[r] = 0` to `argv[argc] = 0`; `s` is what happens to be in the variable. -/
def shellSplit (rdbuf : Bytes) (r s : ℕ) : Except Fault ShellScan := do
  let t ← shellLoop (rdbufSize + 1)
    { rdbuf := put rdbuf r 0, argv := [], p := 0, s, word := false }
  t.store none

/-- The string `strlen` goes over, in `open(argv[0], O_RDWR)`. -/
def openPath (t : ShellScan) : Except Fault (List Byte) :=
  match t.argv.headD none with
  | none => .error .wild
  | some off => cString (bytesFrom t.rdbuf off (rdbufSize - off))

end MyOS
