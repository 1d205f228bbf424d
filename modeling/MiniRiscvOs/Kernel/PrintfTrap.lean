import MiniRiscvOs.Kernel.Printf
import MiniRiscvOs.Lib.System

/-!
# `MiniRiscvOs.Kernel.PrintfTrap`: `lib_printf` and the trap of the timer

`lib_vprintf` of a task and `timer_handler` format into the same `out_buf`.
Here the call of the task goes from one access to `out_buf` to the next.
The counting pass makes none. The writing pass is the list of its stores in
their order, and it reads nothing back. `lib_puts` reads a byte in the test
of its loop and once more to send it.

The trap of the timer may come before each access and outside of the calls.
It runs `timer_handler` to its end, with interrupts off, and the task goes
on where it was. The format and the strings do not lie in `out_buf`. What
the handler sends and what it does to the CLINT are left out.
-/

set_option autoImplicit false

namespace MiniRiscvOs.Kernel

open MiniRiscvOs.Lib

/-! ### The stores of `lib_vsnprintf` -/

/-- `if (out && pos < n) out[pos] = b`, with a destination. -/
def putStore (n pos : Word) (b : Byte) : List (Nat × Byte) :=
  if pos < n then [(pos.toNat, b)] else []

/-- The loop of `case 'x'`, with `k` digits left. -/
def hexStores (n num : Word) : Nat → Word → List (Nat × Byte)
  | 0, _ => []
  | k + 1, pos => putStore n pos (hexDigit num k) ++ hexStores n num k (pos + 1#32)

/-- The loop of `case 'd'`, with `k` digits left. -/
def decStores (n pos : Word) : Nat → Word → List (Nat × Byte)
  | 0, _ => []
  | k + 1, num =>
      putStore n (pos + BitVec.ofNat 32 k) (decDigit num) ++ decStores n pos k (num.sdiv 10#32)

/-- The loop of `case 's'`. -/
def strStores (n : Word) : Word → List Byte → List (Nat × Byte)
  | _, [] => []
  | pos, b :: bs => putStore n pos b ++ strStores n (pos + 1#32) bs

/-- The NUL. -/
def closeStores (n pos : Word) : List (Nat × Byte) :=
  if pos < n then [(pos.toNat, 0#8)]
  else if n ≠ 0#32 then [((n - 1#32).toNat, 0#8)]
  else []

section Stores

variable (vl : Nat → Word) (m : Mem) (n : Word)

/-- The stores of the body of the loop on one character. -/
def stepStores (st : Fmt) (ch : Byte) : List (Nat × Byte) :=
  let pos := st.sink.pos
  let num := vl st.next
  if st.format then
    if ch = asc 'l' then []
    else if ch = asc 'p' then
      putStore n pos (asc '0') ++
        (putStore n (pos + 1#32) (asc 'x') ++ hexStores n num 8 (pos + 1#32 + 1#32))
    else if ch = asc 'x' then hexStores n num 8 pos
    else if ch = asc 'd' then
      if num.slt 0#32 then
        putStore n pos (asc '-') ++ decStores n (pos + 1#32) (digitCount 32 (-num)) (-num)
      else decStores n pos (digitCount 32 num) num
    else if ch = asc 's' then strStores n pos ((cString m num).getD [])
    else if ch = asc 'c' then putStore n pos (num.setWidth 8)
    else []
  else if ch = asc '%' then []
  else putStore n pos ch

/-- The stores of `lib_vsnprintf` from the state `st` on. -/
def passStores : List Byte → Fmt → List (Nat × Byte)
  | [], st => closeStores n st.sink.pos
  | ch :: s, st =>
      stepStores vl m n st ch ++
        match fmtStep vl m n st ch with
        | some st' => passStores s st'
        | none => []

end Stores

/-- A buffer after a list of stores. -/
def applyStores (o : Nat → Byte) (l : List (Nat × Byte)) : Nat → Byte :=
  l.foldl (fun o e => Function.update o e.1 e.2) o

/-! ### The task and the trap -/

/-- A call of `lib_printf`. -/
structure PrintCall where
  vl : Nat → Word
  mem : Mem
  format : List Byte

/-- Where the task is. -/
inductive PrintPc where
  /-- Outside of `lib_printf`. -/
  | idle
  /-- Before the counting pass. -/
  | counting (c : PrintCall)
  /-- In the writing pass, with the stores `rest` to come. -/
  | writing (c : PrintCall) (rest : List (Nat × Byte))
  /-- In `lib_puts`, before the test of `out_buf[i]`. -/
  | testing (c : PrintCall) (i : Nat)
  /-- In `lib_puts`, before `out_buf[i]` is read for `lib_putc`. -/
  | sending (c : PrintCall) (i : Nat)
  /-- In `while (1)`, or in a string without an end. -/
  | looping (c : PrintCall)

/-- `out_buf` and `timer_count`, the task, what its current call has sent,
and its calls that have returned with what they sent. -/
structure PrintState where
  outBuf : Nat → Byte
  timerCount : Word
  pc : PrintPc
  sent : List Byte
  log : List (PrintCall × List Byte)

/-- The task from one access to `out_buf` to the next. -/
def ownStep (s : PrintState) : Option PrintState :=
  match s.pc with
  | .idle => none
  | .counting c =>
      match libVsnprintf c.vl c.mem (-1#32) none c.format with
      | none => some { s with pc := .looping c }
      | some st =>
          let n := st.sink.pos + 1#32
          if outBufSize ≤ n.toNat then
            some { s with sent := s.sent ++ overflowText, pc := .looping c }
          else match libVsnprintf c.vl c.mem n (some s.outBuf) c.format with
            -- It stays in that string and stores below `n` only.
            | none => some { s with pc := .looping c }
            | some _ =>
                some { s with pc := .writing c (passStores c.vl c.mem n c.format
                  ⟨false, false, ⟨0#32, some s.outBuf⟩, 0⟩) }
  | .writing c [] => some { s with pc := .testing c 0 }
  | .writing c (e :: rest) =>
      some { s with outBuf := applyStores s.outBuf [e], pc := .writing c rest }
  | .testing c i =>
      if s.outBuf i = 0#8 then some { s with pc := .idle, log := s.log ++ [(c, s.sent)] }
      else some { s with pc := .sending c i }
  | .sending c i =>
      some { s with sent := s.sent ++ [s.outBuf i], pc := .testing c (i + 1) }
  | .looping c => some { s with pc := .looping c }

/-- What a call of `lib_vprintf` that nothing interrupts leaves in
`out_buf`. -/
def vprintfOutBuf (vl : Nat → Word) (m : Mem) (outBuf : Nat → Byte) (s : List Byte) :
    Option (Nat → Byte) := do
  let res := (← libVsnprintf vl m (-1#32) none s).sink.pos
  if outBufSize ≤ (res + 1#32).toNat then
    return outBuf
  else
    let st ← libVsnprintf vl m (res + 1#32) (some outBuf) s
    return st.sink.out.getD outBuf

/-- The format of `timer_handler`. -/
def timerFormat : List Byte := "timer_handler: %d\n".toList.map asc

/-- `timer_handler`. Its format reads no memory. -/
def timerTrap (s : PrintState) : Option PrintState :=
  let timerCount := s.timerCount + 1#32
  (vprintfOutBuf (fun _ => timerCount) (fun _ => 0#8) s.outBuf timerFormat).map fun outBuf =>
    { s with outBuf := outBuf, timerCount := timerCount }

/-- What happens. -/
inductive PrintEvent where
  /-- The task calls `lib_printf`. -/
  | call (c : PrintCall)
  /-- The task goes on. -/
  | own
  /-- The trap of the timer. -/
  | trap

/-- One event. -/
def printStep (s : PrintState) : PrintEvent → Option PrintState
  | .call c =>
      match s.pc with
      | .idle => some { s with pc := .counting c, sent := [] }
      | _ => none
  | .own => ownStep s
  | .trap => timerTrap s

/-- `out_buf` and `timer_count` are static, so they start with zeros. -/
def printInit : PrintState := ⟨fun _ => 0#8, 0#32, .idle, [], []⟩

/-- The task and the trap from the start. -/
def printSystem : System PrintState PrintEvent := System.ofStep? printInit printStep

end MiniRiscvOs.Kernel
