import MiniRiscvOs.Lib.Memory
import MiniRiscvOs.Lib.System

/-!
# `MiniRiscvOs.Kernel.Console`: reading the UART in `lib.c`

`lib_getc` reads the line status register and then `RHR`, and the loops of
`lib_isr` and `lib_gets` call it. Each register read is one step, because a
byte may arrive between any two of them. In C the conditional
`*UART_RHR == '\r' ? '\n' : *UART_RHR` reads the volatile register a second
time when the first value is no carriage return.

The UART holds one byte. It makes a new byte available only while the
data-ready bit is clear. A read of `RHR` clears the bit, and the register
keeps its value until the next byte arrives. The transmit side is left out
but for the bytes that `lib_isr` sends.
-/

set_option autoImplicit false

namespace MiniRiscvOs.Kernel.Serial

open MiniRiscvOs.Lib

/-- The receive side of the UART: the data-ready bit of `LSR` and `RHR`. -/
structure Uart where
  ready : Bool
  rhr : Byte

/-- A byte becomes available. -/
def Uart.arrive (b : Byte) : Uart := ⟨true, b⟩

/-- The UART after a read of `RHR`. -/
def Uart.taken (u : Uart) : Uart := { u with ready := false }

/-- The next register read of a call of `lib_getc`. -/
inductive GetcPc where
  /-- `*UART_LSR & LSR_RX_READY`. -/
  | status
  /-- `*UART_RHR == '\r'`. -/
  | compare
  /-- The value of the conditional. -/
  | value
deriving DecidableEq, Repr

/-- One register read of `lib_getc`: the UART, and the next read or the
value that the call returns. -/
def libGetc (u : Uart) : GetcPc → Uart × (GetcPc ⊕ Int)
  | .status => (u, if u.ready then .inl .compare else .inr (-1))
  | .compare => (u.taken, if u.rhr = carriageReturn then .inr newline.toNat else .inl .value)
  | .value => (u.taken, .inr u.rhr.toNat)

/-- The function whose loop calls `lib_getc`. -/
inductive Caller where
  | isr
  | gets
deriving DecidableEq, Repr

/-- The UART, the call in progress, and what the callers have done with the
values so far. -/
structure Console where
  uart : Uart
  call : Option (Caller × GetcPc)
  /-- The bytes that `lib_isr` has sent. -/
  sent : List Byte
  /-- The buffer of the last call of `lib_gets`. -/
  line : List Byte
  /-- The bytes that the UART has made available. -/
  arrived : List Byte
  /-- The values other than -1 that `lib_getc` has returned. -/
  got : List Int

/-- `(char)c`. -/
def toChar (c : Int) : Byte := BitVec.ofInt 8 c

/-- The body of the loop of `lib_isr`, with the value of `lib_getc`. -/
def libIsr (c : Int) (s : Console) : Console :=
  if c = -1 then { s with call := none }
  else
    { s with sent := s.sent ++ [toChar c, newline], call := some (.isr, .status) }

/-- The test and the body of the loop of `lib_gets`. `EOF` is 0 there. -/
def libGets (ch : Int) (s : Console) : Console :=
  if ch = newline.toNat ∨ ch = 0 then
    { s with line := s.line ++ [0#8], call := none }
  else if ch = -1 then { s with call := some (.gets, .status) }
  else
    { s with line := s.line ++ [toChar ch], call := some (.gets, .status) }

/-- A call of `lib_getc` returns `c` to its caller. -/
def getcReturns (caller : Caller) (c : Int) (s : Console) : Console :=
  let s := { s with got := if c = -1 then s.got else s.got ++ [c] }
  match caller with
  | .isr => libIsr c s
  | .gets => libGets c s

/-- What happens at the console. -/
inductive ConsoleEvent where
  | arrive (b : Byte)
  | isr
  | gets
  /-- The call in progress reads a register. -/
  | read

/-- One event. A call starts when none is in progress. -/
def ConsoleStep (s : Console) : ConsoleEvent → Console → Prop
  | .arrive b, t =>
      s.uart.ready = false ∧
      t = { s with uart := Uart.arrive b, arrived := s.arrived ++ [b] }
  | .isr, t => s.call = none ∧ t = { s with call := some (.isr, .status) }
  | .gets, t => s.call = none ∧ t = { s with call := some (.gets, .status), line := [] }
  | .read, t => ∃ caller pc, s.call = some (caller, pc) ∧
      t = match libGetc s.uart pc with
        | (u, .inl pc') => { s with uart := u, call := some (caller, pc') }
        | (u, .inr c) => getcReturns caller c { s with uart := u }

/-- The console from the start on, with an empty receiver. -/
def consoleSystem : System Console ConsoleEvent where
  init s := s.uart.ready = false ∧ s.call = none ∧ s.sent = [] ∧ s.line = [] ∧
    s.arrived = [] ∧ s.got = []
  step := ConsoleStep

end MiniRiscvOs.Kernel.Serial
