import Mathlib.Logic.Function.Basic
import MiniRiscvOs.Lib.Memory
import MiniRiscvOs.Lib.System

/-!
# `MiniRiscvOs.Kernel.Transmit`: writing to the UART in `lib.c`

`lib_putc` reads `LSR` until the transmitter is empty and then stores to
`THR`. `lib_puts` calls it for each byte of a string. Tasks and handlers do
so in any interleaving: a task may be preempted between any two accesses,
and a handler comes in anywhere and goes on to its end. Each of them is a
flow.

The UART holds one byte until it has sent it. A store to `THR` before that
takes the place of the byte.
-/

set_option autoImplicit false

namespace MiniRiscvOs.Kernel.Serial

open MiniRiscvOs.Lib

/-- A program point of a flow in `lib_puts` or in `lib_putc`. A string is the
list of its bytes from `s` on, with the terminator behind it. The call of
`lib_putc` has the rest of the string, or `none` outside of `lib_puts`. -/
inductive PutsPc where
  | out
  /-- `while (*s)`. -/
  | test (s : List Byte)
  /-- `while ((*UART_LSR & UART_LSR_EMPTY_MASK) == 0)`. -/
  | poll (ch : Byte) (rest : Option (List Byte))
  /-- `*UART_THR = ch`. -/
  | store (ch : Byte) (rest : Option (List Byte))
deriving DecidableEq, Repr

/-- The flow has seen an empty transmitter and not yet stored its byte. -/
def PutsPc.between : PutsPc → Bool
  | .store _ _ => true
  | _ => false

/-- Where `lib_putc` returns to. -/
def PutsPc.back : Option (List Byte) → PutsPc
  | none => .out
  | some s => .test s

/-- The UART with the flows, and what the bytes are of. `line` is what the
UART has sent. The ghosts: `asked` is the text of the calls of a flow, and
`stored` what it has stored to `THR`. `hit` says that another flow has stored
since a flow saw the transmitter empty. `hits` counts for each flow how often
that has happened, and `overwrites` its stores on top of a byte. -/
structure Transmitter (ι : Type) where
  thr : Option (ι × Byte)
  line : List (ι × Byte)
  flow : ι → PutsPc
  asked : ι → List Byte
  stored : ι → List Byte
  hit : ι → Bool
  hits : ι → Nat
  overwrites : ι → Nat

/-- What happens. -/
inductive TransmitEvent (ι : Type) where
  /-- A call of `lib_puts`. -/
  | puts (t : ι) (s : List Byte)
  /-- A call of `lib_putc` from elsewhere. -/
  | putc (t : ι) (ch : Byte)
  /-- A flow makes its next access. -/
  | step (t : ι)
  /-- The UART has sent its byte. -/
  | sent

/-- The bytes of a string. -/
def cText (s : List Byte) : List Byte := s.takeWhile (· ≠ 0#8)

section

variable {ι : Type} [DecidableEq ι]

/-- Flow `t` goes on at another program point. -/
def Transmitter.goto (s : Transmitter ι) (t : ι) (pc : PutsPc) : Transmitter ι :=
  { s with flow := Function.update s.flow t pc }

/-- Flow `t` stores `ch` to `THR`. -/
def Transmitter.store (s : Transmitter ι) (t : ι) (ch : Byte) : Transmitter ι :=
  { s with
    thr := some (t, ch)
    stored := Function.update s.stored t (s.stored t ++ [ch])
    overwrites := Function.update s.overwrites t (s.overwrites t + if s.thr.isSome then 1 else 0)
    hit := fun u => u ≠ t && (s.hit u || (s.flow u).between)
    hits := fun u => s.hits u + if u ≠ t && (s.flow u).between && !s.hit u then 1 else 0 }

/-- The next access of flow `t`. -/
def flowStep (s : Transmitter ι) (t : ι) : Option (Transmitter ι) :=
  match s.flow t with
  | .out => none
  | .test [] => some (s.goto t .out)
  | .test (ch :: rest) => some (s.goto t (if ch = 0#8 then .out else .poll ch (some rest)))
  | .poll ch rest =>
      if s.thr.isSome then some s
      else some ({ s with hit := Function.update s.hit t false }.goto t (.store ch rest))
  | .store ch rest => some ((s.store t ch).goto t (.back rest))

/-- One event. -/
def transmitStep (s : Transmitter ι) : TransmitEvent ι → Option (Transmitter ι)
  | .puts t str =>
      if s.flow t = .out then
        some ({ s with asked := Function.update s.asked t (s.asked t ++ cText str) }.goto t
          (.test str))
      else none
  | .putc t ch =>
      if s.flow t = .out then
        some ({ s with asked := Function.update s.asked t (s.asked t ++ [ch]) }.goto t
          (.poll ch none))
      else none
  | .step t => flowStep s t
  | .sent => s.thr.map fun b => { s with thr := none, line := s.line ++ [b] }

/-- Nothing has been printed. -/
def transmitReset (ι : Type) : Transmitter ι where
  thr := none
  line := []
  flow := fun _ => .out
  asked := fun _ => []
  stored := fun _ => []
  hit := fun _ => false
  hits := fun _ => 0
  overwrites := fun _ => 0

/-- The flows with the UART. -/
def transmitSystem (ι : Type) [DecidableEq ι] : System (Transmitter ι) (TransmitEvent ι) :=
  System.ofStep? (transmitReset ι) transmitStep

/-- Flow `u` stores to `THR` only while no other flow is between its read of
`LSR` and its store. -/
def KeepsOut (u : ι) (s : Transmitter ι) : TransmitEvent ι → Prop
  | .step t => t = u → (s.flow u).between = true → ∀ v, v ≠ u → (s.flow v).between = false
  | _ => True

end

end MiniRiscvOs.Kernel.Serial
