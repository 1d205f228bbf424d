import MiniRiscvOs.Kernel.Trap
import MiniRiscvOs.Lib.System

/-!
# `MiniRiscvOs.Kernel.Preempt`: from a timer interrupt back to the task

The timer's path through `10-SystemCall`. `trap_handler` answers the
address of `os_kernel`, so the `mret` of `trap_vector` enters `os_kernel`
with the registers of the interrupted task. `task_os` switches to the OS,
other tasks run, and `task_go` switches back.

`os_kernel` and `task_os` are compiled code that the source does not show
(`OsKernelCode`). All that is known is the calling convention: if
`sys_switch` returns to them as a function does, they return to `ra`, with
the callee-saved registers as at their entry.
-/

set_option autoImplicit false

namespace MiniRiscvOs.Kernel.SystemCall

open MiniRiscvOs.Lib

/-! ### `sys.s` -/

/-- The macro `ctx_save`. -/
def ctxSave (base : Reg) : List Instr :=
  [.sw .ra 0 base, .sw .sp 4 base,
   .sw .s0 8 base, .sw .s1 12 base, .sw .s2 16 base, .sw .s3 20 base,
   .sw .s4 24 base, .sw .s5 28 base, .sw .s6 32 base, .sw .s7 36 base,
   .sw .s8 40 base, .sw .s9 44 base, .sw .s10 48 base, .sw .s11 52 base,
   .sw .a0 56 base, .sw .a7 60 base]

/-- The macro `ctx_load`. -/
def ctxLoad (base : Reg) : List Instr :=
  [.lw .ra 0 base, .lw .sp 4 base,
   .lw .s0 8 base, .lw .s1 12 base, .lw .s2 16 base, .lw .s3 20 base,
   .lw .s4 24 base, .lw .s5 28 base, .lw .s6 32 base, .lw .s7 36 base,
   .lw .s8 40 base, .lw .s9 44 base, .lw .s10 48 base, .lw .s11 52 base,
   .lw .a0 56 base, .lw .a7 60 base]

/-- `sys_switch(old, new)`, with its arguments in `a0` and `a1`. -/
def sysSwitch (h : Hart) : Hart := (h.run (ctxSave .a0 ++ ctxLoad .a1)).ret

/-- The bytes of a `struct context` that `sys_switch` uses. -/
def switchSize : Nat := 64

/-! ### The compiled code of `os_kernel` -/

/-- The two globals that `task_os` uses, and the stack of the task that
calls it. -/
structure TaskGlobals where
  ctxOs : Addr
  ctxNow : Addr
  stack : Addr → Bool

/-- `g` returned from a call that `h` made, as the calling convention has
it: to `ra`, with the callee-saved registers and the stack of `h`. -/
structure Returned (G : TaskGlobals) (h g : Hart) : Prop where
  pc : g.pc = h.reg .ra &&& ~~~1#32
  reg : ∀ r, r.callerSaved = false → g.reg r = h.reg r
  stack : ∀ x, G.stack x = true → g.mem x = h.mem x

/-- Compiled code of `os_kernel` and `task_os`, cut at the call of
`sys_switch`: `call` leads from the entry of `os_kernel` to that call, and
`ret` from there to the return of `os_kernel`. -/
structure OsKernelCode (G : TaskGlobals) where
  call : Hart → Hart
  ret : Hart → Hart → Hart
  old : ∀ h, (call h).reg .a0 = load32 h.mem G.ctxNow
  new : ∀ h, (call h).reg .a1 = G.ctxOs
  mem : ∀ h x, G.stack x = false → (call h).mem x = store32 h.mem G.ctxNow G.ctxOs x
  ret_pc : ∀ h g, Returned G (call h) g → (ret h g).pc = h.reg .ra &&& ~~~1#32
  ret_reg : ∀ h g, Returned G (call h) g →
    ∀ r, r.callerSaved = false → (ret h g).reg r = h.reg r

/-! ### The way of a preempted task -/

/-- A timer interrupt in a task. The C code of the trap has the memory
`own` for itself. The globals of the kernel do not overlap each other, nor
the stack of the task. -/
structure Preempted where
  platform : Platform
  hart : Hart
  ctx : Addr
  globals : TaskGlobals
  own : Addr → Bool
  ctx_now : load32 hart.mem globals.ctxNow = ctx
  apart : [(hart.csr .mscratch, 128), (ctx, switchSize), (globals.ctxOs, switchSize),
    (globals.ctxNow, 4)].Pairwise fun p q => Apart p.1 p.2 q.1 q.2
  own_apart : ∀ p ∈ [(hart.csr .mscratch, 128), (globals.ctxNow, 4)],
    ∀ x, InRange p.1 p.2 x → own x = false
  stack_apart : ∀ p ∈ [(ctx, switchSize), (globals.ctxOs, switchSize), (globals.ctxNow, 4)],
    ∀ x, InRange p.1 p.2 x → globals.stack x = false

/-- `mcause` of the timer's interrupt. -/
def timerCause : Word := 0x80000007#32

namespace Preempted

variable (S : Preempted)

/-- At the first instruction of `os_kernel`. -/
def atOsKernel (l : Leftover) : Hart := trap S.platform S.own l timerCause S.hart

/-- In the OS, after the `sys_switch` of `task_os`. -/
def inOs (C : OsKernelCode S.globals) (l : Leftover) : Hart :=
  sysSwitch (C.call (S.atOsKernel l))

/-- What happens while the task does not run: anything that leaves its
context and its stack alone. No C function writes `gp` or `tp`. -/
def elsewhere : System Hart Unit where
  init _ := True
  step h _ g :=
    (∀ x, InRange S.ctx switchSize x ∨ S.globals.stack x = true → g.mem x = h.mem x) ∧
      g.reg .gp = h.reg .gp ∧ g.reg .tp = h.reg .tp

/-- `h` is the OS at the `sys_switch` of `task_go`, some time after the
preemption. -/
structure TaskGo (C : OsKernelCode S.globals) (l : Leftover) (h : Hart) : Prop where
  later : ∃ es, S.elsewhere.Run (S.inOs C l) es h
  old : h.reg .a0 = S.globals.ctxOs
  new : h.reg .a1 = S.ctx

/-- The task at the return from `os_kernel`, when `h` was the OS at the
`sys_switch` that activated it. -/
def resumed (C : OsKernelCode S.globals) (l : Leftover) (h : Hart) : Hart :=
  C.ret (S.atOsKernel l) (sysSwitch h)

/-- The task goes on as if nothing had happened. -/
def Transparent (C : OsKernelCode S.globals) (l : Leftover) (h : Hart) : Prop :=
  (S.resumed C l h).pc = S.hart.pc ∧ ∀ r, (S.resumed C l h).reg r = S.hart.reg r

end Preempted

end MiniRiscvOs.Kernel.SystemCall
