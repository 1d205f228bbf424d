import MiniRiscvOs.Kernel.Trap
import MiniRiscvOs.Lib.System

/-!
# `MiniRiscvOs.Kernel.Boot`: the control registers from reset on

`os_start` of `10-SystemCall`, with the traps that arrive while it runs and
after it. The routines of `os_start` write `mtvec`, `mie`, `mstatus` and
`mscratch` one after the other (`osStart`). Any other code of the kernel and
of the tasks is a `work` step, which changes registers and memory in any
way and no control register.

A trap is run instruction by instruction. While the hart is in
`trap_vector` or `trap_handler` its interrupts are disabled.
-/

set_option autoImplicit false

namespace MiniRiscvOs.Kernel.SystemCall

open MiniRiscvOs.Lib

/-- What a kernel image and its hart fix. The C code of the trap handlers
writes the memory `own`. -/
structure BootEnv where
  platform : Platform
  /-- The address of `trap_vector`. -/
  trapVector : Addr
  /-- `&timer_scratch[id][0]`. -/
  timerScratch : Addr
  own : Addr → Bool

/-- The bytes of `timer_scratch[id]`, the five words of one hart. -/
def scratchRow : Nat := 20

/-- `MIE_MEIE`, the bit of external interrupts in `mie`. -/
def mieMeie : Word := 1#32 <<< 11

/-- An access to a control register. `w_mie(r_mie() | v)` is a `read` and
an `orWrite`, with the old value in a register in between. -/
inductive BootOp where
  | write (c : Csr) (v : Word)
  | read (c : Csr)
  | orWrite (c : Csr) (v : Word)
deriving DecidableEq, Repr

/-- `trap_init()`. -/
def trapInit (E : BootEnv) : List BootOp := [.write .mtvec E.trapVector]

/-- `plic_init()`. -/
def plicInit : List BootOp :=
  [.read .mie, .orWrite .mie mieMeie, .read .mstatus, .orWrite .mstatus statusMie]

/-- `timer_init()`. -/
def timerInit (E : BootEnv) : List BootOp :=
  [.write .mscratch E.timerScratch, .read .mie, .orWrite .mie mieMtie]

/-- `os_start()`. The other routines it calls, `uart_init`, `page_init`,
`user_init` and `virtio_disk_init`, access no control register. -/
def osStart (E : BootEnv) : List BootOp := trapInit E ++ plicInit ++ timerInit E

/-- Where the hart is. `todo` is what is left of `os_start`. -/
inductive Place where
  | kernel (todo : List BootOp)
  /-- In `trap_vector`, before its call. -/
  | entry (is : List Instr) (todo : List BootOp)
  /-- In `trap_vector`, after its call. -/
  | exit (is : List Instr) (todo : List BootOp)
  /-- After a jump to an `mtvec` that is not `trap_vector`. -/
  | lost
deriving DecidableEq, Repr

/-- The hart. `tmp` is the register of a read that a write is to follow. -/
structure BootState where
  hart : Hart
  place : Place
  tmp : Word

/-- The interrupts. -/
inductive Irq where
  | software
  | timer
  | external
deriving DecidableEq, Repr

/-- The number of an interrupt: its bit in `mie`, and its code in
`mcause`. -/
def Irq.code : Irq → Nat
  | .software => 3
  | .timer => 7
  | .external => 11

/-- The bit of the interrupt in `mie` and `mip`. -/
def Irq.bit (i : Irq) : Word := 1#32 <<< i.code

/-- What `mcause` holds for the interrupt. -/
def Irq.cause (i : Irq) : Word := 0x80000000#32 ||| BitVec.ofNat 32 i.code

/-- The interrupt can be taken: `mstatus.MIE` and its bit in `mie` are
set. -/
def CanTake (h : Hart) (i : Irq) : Prop :=
  h.csr .mstatus &&& statusMie ≠ 0#32 ∧ h.csr .mie &&& i.bit ≠ 0#32

/-- What happens next. -/
inductive BootEvent where
  | work
  | op
  | interrupt (i : Irq)
  | exception (cause : Word)
  | instr
  | handler (l : Leftover)
  | mret

/-- The hart after the next access of `os_start`. -/
def BootState.access (s : BootState) (op : BootOp) : BootState :=
  match op with
  | .write c v => { s with hart := s.hart.setCsr c v }
  | .read c => { s with tmp := s.hart.csr c }
  | .orWrite c v => { s with hart := s.hart.setCsr c (s.tmp ||| v) }

/-- The hart after the jump of a trap. -/
def BootState.jump (E : BootEnv) (s : BootState) (cause : Word) (todo : List BootOp) :
    BootState :=
  { s with
    hart := s.hart.takeTrap cause
    place := if s.hart.csr .mtvec = E.trapVector then .entry trapEntry todo else .lost }

/-- One step. An exception is an `ecall` or a fault of a task, and there are
no tasks before the end of `os_start`. -/
def bootStep (E : BootEnv) (s : BootState) (e : BootEvent) (t : BootState) : Prop :=
  match e, s.place with
  | .work, .kernel _ => t.hart.csr = s.hart.csr ∧ t.place = s.place ∧ t.tmp = s.tmp
  | .op, .kernel (op :: todo) => t = { s.access op with place := .kernel todo }
  | .interrupt i, .kernel todo => CanTake s.hart i ∧ t = s.jump E i.cause todo
  | .exception cause, .kernel [] =>
      cause &&& 0x80000000#32 = 0#32 ∧ t = s.jump E cause []
  | .instr, .entry (i :: is) todo =>
      t = { s with hart := s.hart.exec i, place := .entry is todo }
  | .handler l, .entry [] todo =>
      t = { s with hart := callTrapHandler E.platform E.own l s.hart
                   place := .exit trapExit todo }
  | .instr, .exit (i :: is) todo =>
      t = { s with hart := s.hart.exec i, place := .exit is todo }
  | .mret, .exit [] todo => t = { s with hart := s.hart.mret, place := .kernel todo }
  | _, _ => False

/-- A hart at reset: interrupts are disabled. The other registers and the
memory are arbitrary, `mscratch` among them. -/
structure Reset where
  hart : Hart
  tmp : Word
  mie_clear : hart.csr .mstatus &&& statusMie = 0#32

/-- The kernel from reset on. -/
def bootSystem (E : BootEnv) (R : Reset) : System BootState BootEvent where
  init s := s = { hart := R.hart, place := .kernel (osStart E), tmp := R.tmp }
  step := bootStep E

end MiniRiscvOs.Kernel.SystemCall
