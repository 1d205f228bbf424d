import MiniRiscvOs.Lib.Memory
import MiniRiscvOs.Lib.Sink

/-!
# `MiniRiscvOs.Kernel.Printf`: `lib_vsnprintf` and `lib_vprintf` of `lib.c`

`lib_vsnprintf` goes over the format character by character with two
flags: `format` between a `%` and the end of its conversion, `longarg`
after an `l`. It counts in `pos` what it would write, and writes what is
below the size `n` if there is a destination. `lib_vprintf` calls it twice,
first without a destination for the length, then into `out_buf`.

`int`, `long` and pointers have 32 bits, so each argument is one word, and
an argument list is the sequence of its words. A string argument is read
from memory, byte by byte up to its NUL, and one without a NUL is read
forever (`none`). The destination overlaps neither the format nor the
strings: C leaves such a call undefined.
-/

set_option autoImplicit false

namespace MiniRiscvOs.Kernel

open MiniRiscvOs.Lib

/-- The code of a character. -/
def asc (c : Char) : Byte := BitVec.ofNat 8 c.toNat

/-- The variables of `lib_vsnprintf`. `next` counts the calls of
`va_arg`. -/
structure Fmt where
  format : Bool
  longarg : Bool
  sink : Sink 32 Byte
  next : Nat

/-- The bytes of the string at `p` up to its NUL. `none`: there is none in
the whole address space. -/
def cstr (m : Mem) : Nat → Addr → Option (List Byte)
  | 0, _ => none
  | fuel + 1, p => if m p = 0#8 then some [] else (cstr m fuel (p + 1#32)).map (m p :: ·)

/-- The string at `p`. -/
def cString (m : Mem) (p : Addr) : Option (List Byte) := cstr m (2 ^ 32) p

/-- A hexadecimal digit of `case 'x'`. -/
def hexDigit (num : Word) (i : Nat) : Byte :=
  let d := num.sshiftRight (4 * i) &&& 0xF#32
  if d < 10#32 then asc '0' + d.setWidth 8 else asc 'a' + d.setWidth 8 - 10#8

/-- The loop of `case 'x'`, with `k` digits left. -/
def putHex (n num : Word) : Nat → Sink 32 Byte → Sink 32 Byte
  | 0, s => s
  | k + 1, s => putHex n num k (s.put n (hexDigit num k))

/-- `for (long nn = num; nn /= 10; digits++)`, from `digits = 1`. -/
def digitCount : Nat → Word → Nat
  | 0, _ => 1
  | fuel + 1, nn =>
      let nn := nn.sdiv 10#32
      if nn ≠ 0#32 then digitCount fuel nn + 1 else 1

/-- `'0' + (num % 10)`. -/
def decDigit (num : Word) : Byte := asc '0' + (num.srem 10#32).setWidth 8

/-- The loop of `case 'd'`, with `k` digits left: the digits are written
from the last to the first. -/
def putDec (n : Word) : Nat → Word → Sink 32 Byte → Sink 32 Byte
  | 0, _, s => s
  | k + 1, num, s => putDec n k (num.sdiv 10#32) (s.poke n k (decDigit num))

section Conversions

variable (vl : Nat → Word) (m : Mem) (n : Word)

/-- `case 'p'` up to where it falls through to `case 'x'`. -/
def caseP (st : Fmt) : Fmt :=
  { st with longarg := true, sink := (st.sink.put n (asc '0')).put n (asc 'x') }

/-- `case 'x'`. `int` and `long` both have eight digits. -/
def caseX (st : Fmt) : Fmt where
  format := false
  longarg := false
  sink := putHex n (vl st.next) 8 st.sink
  next := st.next + 1

/-- `case 'd'`. -/
def caseD (st : Fmt) : Fmt :=
  let num := vl st.next
  let neg := num.slt 0#32
  let sink := if neg then st.sink.put n (asc '-') else st.sink
  let num := if neg then -num else num
  let digits := digitCount 32 num
  { format := false
    longarg := false
    sink := (putDec n digits num sink).advance digits
    next := st.next + 1 }

/-- `case 's'`. -/
def caseS (st : Fmt) : Option Fmt :=
  (cString m (vl st.next)).map fun s =>
    { format := false, longarg := false, sink := st.sink.emit n s, next := st.next + 1 }

/-- `case 'c'`. The argument is taken only where it can be written. -/
def caseC (st : Fmt) : Fmt where
  format := false
  longarg := false
  sink := st.sink.put n ((vl st.next).setWidth 8)
  next := if st.sink.out.isSome ∧ st.sink.pos < n then st.next + 1 else st.next

/-- The body of the loop of `lib_vsnprintf` on one character. -/
def fmtStep (st : Fmt) (ch : Byte) : Option Fmt :=
  if st.format then
    if ch = asc 'l' then some { st with longarg := true }
    else if ch = asc 'p' then some (caseX vl n (caseP n st))
    else if ch = asc 'x' then some (caseX vl n st)
    else if ch = asc 'd' then some (caseD vl n st)
    else if ch = asc 's' then caseS vl m n st
    else if ch = asc 'c' then some (caseC vl n st)
    else some st
  else if ch = asc '%' then some { st with format := true }
  else some { st with sink := st.sink.put n ch }

/-- The loop of `lib_vsnprintf`. -/
def fmtLoop (s : List Byte) (st : Fmt) : Option Fmt := s.foldlM (fmtStep vl m n) st

/-- `lib_vsnprintf`. The result is its final state: `pos` is what it
returns. -/
def libVsnprintf (out : Option (Nat → Byte)) (s : List Byte) : Option Fmt :=
  (fmtLoop vl m n s ⟨false, false, ⟨0#32, out⟩, 0⟩).map fun st =>
    { st with sink := st.sink.close n 0#8 }

end Conversions

/-- What a call of `lib_vprintf` sends to the UART, and what it returns.
`none`: it is in its endless loop. -/
structure Printed where
  emitted : List Byte
  res : Option Word
deriving DecidableEq, Repr

/-- The text of `lib_vprintf` on an overflow of `out_buf`. -/
def overflowText : List Byte :=
  "error: lib_vprintf() output string size overflow\n".toList.map asc

/-- `sizeof(out_buf)`. -/
def outBufSize : Nat := 1000

/-- `lib_puts(out_buf)`: the bytes up to the first NUL. -/
def putsOutBuf (outBuf : Nat → Byte) : Option (List Byte) :=
  cString (fun a => outBuf a.toNat) 0#32

/-- `lib_vprintf`. -/
def libVprintf (vl : Nat → Word) (m : Mem) (outBuf : Nat → Byte) (s : List Byte) :
    Option Printed := do
  let res := (← libVsnprintf vl m (-1#32) none s).sink.pos
  if outBufSize ≤ (res + 1#32).toNat then
    return ⟨overflowText, none⟩
  else
    let st ← libVsnprintf vl m (res + 1#32) (some outBuf) s
    let text ← putsOutBuf (st.sink.out.getD outBuf)
    return ⟨text, some res⟩

end MiniRiscvOs.Kernel
