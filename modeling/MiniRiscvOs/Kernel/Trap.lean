import MiniRiscvOs.Lib.Rv32
import MiniRiscvOs.Lib.System

/-!
# `MiniRiscvOs.Kernel.Trap`: `trap_vector` and the handler it calls

`sys.s`, `trap.c` and `syscall.c` of `10-SystemCall`. On a trap the hart
jumps to `trap_vector`, which stores its registers in the block that
`mscratch` points to, calls `trap_handler`, loads the registers and returns
to the address that the handler answers.

`trapHandler` is what the C source says: the return address, `mie`, and the
memory that a system call writes. What the handlers of the devices do is
their own affair (`Leftover`): they change registers as the calling
convention allows, and memory of their own.
-/

set_option autoImplicit false

namespace MiniRiscvOs.Kernel.SystemCall

open MiniRiscvOs.Lib

/-! ### `riscv.h` -/

/-- The fields of `struct context`, in order. -/
def structContext : List Reg :=
  [.ra, .sp, .gp, .tp, .t0, .t1, .t2, .s0, .s1,
   .a0, .a1, .a2, .a3, .a4, .a5, .a6, .a7,
   .s2, .s3, .s4, .s5, .s6, .s7, .s8, .s9, .s10, .s11,
   .t3, .t4, .t5, .t6]

/-- The offset of a field of `struct context`. -/
def offsetOf (r : Reg) : Nat := 4 * structContext.idxOf r

/-- `MIE_MTIE`, the timer's bit of `mie`. -/
def mieMtie : Word := 1#32 <<< 7

/-! ### `sys.s` -/

/-- The macro `reg_save`. -/
def regSave (base : Reg) : List Instr :=
  [.sw .ra 0 base, .sw .sp 4 base, .sw .gp 8 base, .sw .tp 12 base,
   .sw .t0 16 base, .sw .t1 20 base, .sw .t2 24 base,
   .sw .s0 28 base, .sw .s1 32 base,
   .sw .a0 36 base, .sw .a1 40 base, .sw .a2 44 base, .sw .a3 48 base,
   .sw .a4 52 base, .sw .a5 56 base, .sw .a6 60 base, .sw .a7 64 base,
   .sw .s2 68 base, .sw .s3 72 base, .sw .s4 76 base, .sw .s5 80 base,
   .sw .s6 84 base, .sw .s7 88 base, .sw .s8 92 base, .sw .s9 96 base,
   .sw .s10 100 base, .sw .s11 104 base,
   .sw .t3 108 base, .sw .t4 112 base, .sw .t5 116 base]

/-- The macro `reg_load`. It has one register more than `reg_save`. -/
def regLoad (base : Reg) : List Instr :=
  [.lw .ra 0 base, .lw .sp 4 base, .lw .gp 8 base, .lw .tp 12 base,
   .lw .t0 16 base, .lw .t1 20 base, .lw .t2 24 base,
   .lw .s0 28 base, .lw .s1 32 base,
   .lw .a0 36 base, .lw .a1 40 base, .lw .a2 44 base, .lw .a3 48 base,
   .lw .a4 52 base, .lw .a5 56 base, .lw .a6 60 base, .lw .a7 64 base,
   .lw .s2 68 base, .lw .s3 72 base, .lw .s4 76 base, .lw .s5 80 base,
   .lw .s6 84 base, .lw .s7 88 base, .lw .s8 92 base, .lw .s9 96 base,
   .lw .s10 100 base, .lw .s11 104 base,
   .lw .t3 108 base, .lw .t4 112 base, .lw .t5 116 base, .lw .t6 120 base]

/-- `trap_vector` up to the call of `trap_handler`. -/
def trapEntry : List Instr :=
  [.csrrw .t6 .mscratch .t6] ++ regSave .t6 ++
  [.csrw .mscratch .t6,
   .csrr .a0 .mepc, .sw .a0 124 .t6,
   .csrr .a0 .mepc, .csrr .a1 .mcause, .csrr .a2 .mscratch]

/-- `trap_vector` from the return of `trap_handler` to its `mret`. -/
def trapExit : List Instr :=
  [.csrw .mepc .a0, .csrr .t6 .mscratch] ++ regLoad .t6

/-! ### `syscall.c` and `trap.c` -/

/-- What the code takes from the linker and from the hardware. -/
structure Platform where
  osKernel : Addr
  mhartid : Word

/-- `sys_gethid(ptr_hid)`, with `NULL` for the address zero. -/
def sysGethid (P : Platform) (ptrHid : Word) (m : Mem) : Word × Mem :=
  if ptrHid = 0#32 then (-1#32, m)
  else (0#32, store32 m ptrHid P.mhartid)

/-- `do_syscall(ctx)`. -/
def doSyscall (P : Platform) (ctx : Addr) (m : Mem) : Mem :=
  let a0 := ctx + BitVec.ofNat 32 (offsetOf .a0)
  let syscallNum := load32 m (ctx + BitVec.ofNat 32 (offsetOf .a7))
  if syscallNum = 1#32 then
    let r := sysGethid P (load32 m a0) m
    store32 r.2 a0 r.1
  else store32 m a0 (-1#32)

/-- `trap_handler(epc, cause, ctx)`: the address it returns and the hart. -/
def trapHandler (P : Platform) (epc cause ctx : Word) (h : Hart) : Word × Hart :=
  let causeCode := cause &&& 0xfff#32
  if cause &&& 0x80000000#32 ≠ 0#32 then
    if causeCode = 7#32 then
      -- `timer_handler` runs with the timer's interrupt disabled.
      let h := h.setCsr .mie (h.csr .mie &&& ~~~mieMtie)
      (P.osKernel, h.setCsr .mie (h.csr .mie ||| mieMtie))
    else (epc, h)
  else if causeCode = 8#32 ∨ causeCode = 11#32 then
    (epc + 4#32, { h with mem := doSyscall P ctx h.mem })
  else (epc, h)

/-- `call trap_handler`. -/
def callTrapHandler (P : Platform) (own : Addr → Bool) (l : Leftover) (h : Hart) : Hart :=
  let r := trapHandler P (h.reg .a0) (h.reg .a1) (h.reg .a2) h
  (r.2.clobber own l).setReg .a0 r.1

/-- `trap_vector`. -/
def trapVector (P : Platform) (own : Addr → Bool) (l : Leftover) (h : Hart) : Hart :=
  ((callTrapHandler P own l (h.run trapEntry)).run trapExit).mret

/-- A trap, from the instruction it interrupts to the `mret`. -/
def trap (P : Platform) (own : Addr → Bool) (l : Leftover) (cause : Word) (h : Hart) : Hart :=
  trapVector P own l (h.takeTrap cause)

/-- A trap that `trap_handler` answers with the address it came from: an
interrupt other than the timer's, and an exception other than an `ecall`. -/
def Resumes (cause : Word) : Prop :=
  if cause &&& 0x80000000#32 ≠ 0#32 then cause &&& 0xfff#32 ≠ 7#32
  else cause &&& 0xfff#32 ≠ 8#32 ∧ cause &&& 0xfff#32 ≠ 11#32

instance (cause : Word) : Decidable (Resumes cause) :=
  inferInstanceAs (Decidable (if cause &&& 0x80000000#32 ≠ 0#32 then cause &&& 0xfff#32 ≠ 7#32
    else cause &&& 0xfff#32 ≠ 8#32 ∧ cause &&& 0xfff#32 ≠ 11#32))

/-- Such traps one after the other, with nothing in between. -/
def resumeSystem (P : Platform) (own : Addr → Bool) (start : Hart) :
    System Hart (Word × Leftover) where
  init h := h = start
  step h e g := Resumes e.1 ∧ g = trap P own e.2 e.1 h

/-! ### `usys.s` -/

/-- `gethid`: `li a7, 1`, then `ecall` with the cause it has in the mode of
the hart, then `ret`. -/
def gethid (P : Platform) (own : Addr → Bool) (l : Leftover) (cause : Word) (h : Hart) : Hart :=
  (trap P own l cause { h.setReg .a7 1#32 with pc := h.pc + 4#32 }).ret

end MiniRiscvOs.Kernel.SystemCall
