import MiniRiscvOs.Kernel.Trap
import MiniRiscvOs.Lib.System

/-!
# `MiniRiscvOs.Kernel.Timer`: the timer of `timer.c`

`timer_init` and `timer_handler` of `10-SystemCall` with the two registers
of the CLINT that they access. `mtime` and `mtimecmp` have 64 bits each, low
word first, and `reg_t` has 32. The interrupt of the timer is pending while
`mtime` is at least `mtimecmp`.

The registers of `mtimecmp` are bytes of the memory at the addresses they
have on the bus. `timerSystem` is hart 0 from its reset on: time passes, the
two routines run at any moment, and the rest of the kernel writes anything
outside of the CLINT. What `timer_handler` prints is left out.
-/

set_option autoImplicit false

namespace MiniRiscvOs.Kernel.Timer

open MiniRiscvOs.Lib
open MiniRiscvOs.Kernel.SystemCall (mieMtie)

/-- `CLINT`. -/
def clint : Addr := 0x2000000#32

/-- `CLINT_MTIMECMP(hartid)`. -/
def clintMtimecmp (hartid : Word) : Addr := clint + 0x4000#32 + 4#32 * hartid

/-- `CLINT_MTIME`. -/
def clintMtime : Addr := clint + 0xBFF8#32

/-- The cycles between two interrupts of the timer. -/
def interval : Word := 20000000#32

/-- Where the linker puts the array `timer_scratch`, 8 rows of 5 words. -/
structure TimerEnv where
  timerScratch : Addr
  ram_le : 0x80000000 ≤ timerScratch.toNat
  end_le : timerScratch.toNat + 160 ≤ 0x88000000

/-- What the two routines read and write. -/
structure Machine where
  mtime : BitVec 64
  mem : Mem
  mscratch : Word
  mie : Word
  timerCount : Word

/-- A load of a word. The words of `mtime` are not memory. -/
def Machine.load (s : Machine) (a : Addr) : Word :=
  if a = clintMtime then s.mtime.setWidth 32
  else if a = clintMtime + 4#32 then (s.mtime >>> 32).setWidth 32
  else load32 s.mem a

/-- The register `mtimecmp` of hart 0. -/
def Machine.mtimecmp (s : Machine) : BitVec 64 :=
  load32 s.mem (clint + 0x4004#32) ++ load32 s.mem (clint + 0x4000#32)

/-- Whether the interrupt is pending when `mtime` is `now`. -/
def Machine.pendingAt (s : Machine) (now : BitVec 64) : Prop := s.mtimecmp ≤ now

instance (s : Machine) (now : BitVec 64) : Decidable (s.pendingAt now) :=
  inferInstanceAs (Decidable (_ ≤ _))

/-- `timer_init`, on the hart `id`. -/
def timerInit (E : TimerEnv) (id : Word) (s : Machine) : Machine :=
  let mem := store32 s.mem (clintMtimecmp id) (s.load clintMtime + interval)
  let scratch := E.timerScratch + 20#32 * id
  let mem := store32 mem (scratch + 12#32) (clintMtimecmp id)
  let mem := store32 mem (scratch + 16#32) interval
  { s with mem := mem, mscratch := scratch, mie := s.mie ||| mieMtie }

/-- `timer_handler`, on the hart `id`. -/
def timerHandler (id : Word) (s : Machine) : Machine :=
  { s with
    timerCount := s.timerCount + 1#32
    mem := store32 s.mem (clintMtimecmp id) (s.load clintMtime + interval) }

/-- What happens on hart 0. -/
inductive TimerEvent where
  | advance (cycles : Nat)
  | timerInit
  | timerHandler
  /-- A store of the rest of the kernel. -/
  | store (a : Addr) (b : Byte)

/-- The machine, with the time of the last call of one of the routines. -/
structure TimerState where
  machine : Machine
  armedAt : Option (BitVec 64)

/-- One event. -/
def TimerStep (E : TimerEnv) (s : TimerState) : TimerEvent → TimerState → Prop
  | .advance cycles, t =>
      t = { s with machine.mtime := s.machine.mtime + BitVec.ofNat 64 cycles }
  | .timerInit, t => t = ⟨timerInit E 0#32 s.machine, some s.machine.mtime⟩
  | .timerHandler, t => t = ⟨timerHandler 0#32 s.machine, some s.machine.mtime⟩
  | .store a b, t =>
      ¬ InRange clint 0x10000 a ∧ t = { s with machine.mem := store8 s.machine.mem a b }

/-- Hart 0 from its reset on. The reset leaves the upper word of `mtimecmp`
zero and everything else as it happens to be. -/
def timerSystem (E : TimerEnv) : System TimerState TimerEvent where
  init s := load32 s.machine.mem (clint + 0x4004#32) = 0#32 ∧ s.armedAt = none
  step := TimerStep E

end MiniRiscvOs.Kernel.Timer
