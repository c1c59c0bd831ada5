import MyOS.Const
import MyOS.Lib.Memory

/-!
# Formatted text

`vsprintf` of `lib/vsprintf.c`, and `itoa` of `kernel/klib.c`. The format and the strings are the
bytes up to their null; a read behind the null is a fault. The arguments are the words from
`p_next_arg` on, of which a pointer leads to a string, and the buffer has room for what is written.
-/

namespace MyOS

open Memory

def strDefaultLen : ℕ := 1024

/-- A character constant. -/
def ascii (c : Char) : Byte := BitVec.ofNat 8 c.toNat

/-- `(m < 10) ? (m + '0') : (m - 10 + 'A')` -/
def i2aDigit (m : BitVec 32) : Byte :=
  (if m.toInt < 10 then m + 0x30 else m - 10 + 0x41).setWidth 8

/-- The recursion of `i2a`, `n` calls deep at most. -/
def i2aLoop : ℕ → BitVec 32 → BitVec 32 → List Byte → Except Fault (List Byte)
  | 0, _, _, _ => .error .spin
  | n + 1, val, base, ps => do
    let m := val.srem base
    let q := val.sdiv base
    let ps ← if q ≠ 0 then i2aLoop n q base ps else .ok ps
    .ok (ps ++ [i2aDigit m])

/-- A base that is at least two is done after as many calls as there are bits. -/
def i2a (val base : BitVec 32) (ps : List Byte) : Except Fault (List Byte) := i2aLoop 32 val base ps

/-- The recursion as it stores: `*ps` is the pointer that all calls share. -/
def i2aAt : ℕ → BitVec 32 → BitVec 32 → Mem → Addr → Except Fault (Mem × Addr)
  | 0, _, _, _, _ => .error .spin
  | n + 1, val, base, mem, ps => do
    let m := val.srem base
    let q := val.sdiv base
    let (mem, ps) ← if q ≠ 0 then i2aAt n q base mem ps else .ok (mem, ps)
    .ok (Function.update mem ps (i2aDigit m), ps + 1)

/-- The loop over the width. -/
def alignLoop (alignNr : BitVec 32) : List Byte → BitVec 32 × List Byte
  | [] => (alignNr, [])
  | c :: fmt =>
    if ascii '0' ≤ c ∧ c ≤ ascii '9' then
      alignLoop (alignNr * 10 + (c.setWidth 32 - 0x30)) fmt
    else (alignNr, c :: fmt)

/-- The words from `p_next_arg` on. -/
abbrev VaList := ℕ → BitVec 32

/-- `p_next_arg += 4` -/
def VaList.next (args : VaList) : VaList := fun i => args (i + 1)

/-- The bytes of a string of `n` bytes in which the null is looked for. -/
def untilNull (l : List Byte) : List Byte := l.takeWhile (· ≠ 0)

/-- The `switch` over the conversion letter: what is in `inner_buf` up to its null, and the
arguments left. -/
def convert (strAt : Addr → List Byte) (letter : Byte) (args : VaList) :
    Except Fault (List Byte × VaList) :=
  if letter = ascii 'c' then .ok (untilNull [(args 0).setWidth 8], args.next)
  else if letter = ascii 'x' then do
    let q ← i2a (args 0) 16 []
    .ok (untilNull q, args.next)
  else if letter = ascii 'd' then do
    let m := args 0
    let (m, q) := if m.toInt < 0 then (m * (-1), [ascii '-']) else (m, [])
    let q ← i2a m 10 q
    .ok (untilNull q, args.next)
  else if letter = ascii 's' then
    if (strAt (args 0)).length < strDefaultLen then .ok (untilNull (strAt (args 0)), args.next)
    else .error .wild
  else .ok ([], args)

/-- The loop of `vsprintf`, in `n` turns at most. -/
def vsprintfLoop (strAt : Addr → List Byte) :
    ℕ → List Byte → VaList → List Byte → Except Fault (List Byte)
  | 0, _, _, _ => .error .spin
  | _ + 1, [], _, p => .ok p
  | n + 1, c :: fmt, args, p =>
    if c ≠ ascii '%' then vsprintfLoop strAt n fmt args (p ++ [c])
    else if fmt.headD 0 = ascii '%' then vsprintfLoop strAt n fmt.tail args (p ++ [ascii '%'])
    else do
      let (cs, fmt) :=
        if fmt.headD 0 = ascii '0' then (ascii '0', fmt.tail) else (ascii ' ', fmt)
      let (alignNr, fmt) := alignLoop 0 fmt
      let (inner, args) ← convert strAt (fmt.headD 0) args
      let p := p ++ List.replicate (alignNr.toInt - inner.length).toNat cs ++ inner
      match fmt with
      -- the null has been the conversion letter, and the loop reads on behind it
      | [] => .error .wild
      | _ :: fmt => vsprintfLoop strAt n fmt args p

/-- What is in `buf`, and the number returned. -/
def vsprintf (strAt : Addr → List Byte) (fmt : List Byte) (args : VaList) :
    Except Fault (List Byte × BitVec 32) := do
  let p ← vsprintfLoop strAt (fmt.length + 1) fmt args []
  .ok (p ++ [0], BitVec.ofNat 32 p.length)

def strlen (buf : List Byte) : BitVec 32 := BitVec.ofNat 32 (untilNull buf).length

/-- The loop of `itoa` over the `k` digits that are left. -/
def itoaLoop (num : BitVec 32) : ℕ → Bool → List Byte
  | 0, _ => []
  | k + 1, flag =>
    let ch := (num.sshiftRight (4 * k) &&& 0xF).setWidth 8
    if flag ∨ 0 < ch then
      let ch := ch + ascii '0'
      (if ascii '9' < ch then ch + 7 else ch) :: itoaLoop num k true
    else itoaLoop num k flag

def itoa (num : BitVec 32) : List Byte :=
  [ascii '0', ascii 'x'] ++ (if num = 0 then [ascii '0'] else itoaLoop num 8 false) ++ [0]

end MyOS
