import MiniRiscvOs.Kernel.Boot
import MiniRiscvOs.Kernel.MultiTasking
import MiniRiscvOs.Kernel.Preempt
import MiniRiscvOs.Kernel.TaskTable

/-!
# `MiniRiscvOs.Kernel.Preemptive`: the scheduler under the timer

`os_main`, `task_go`, `os_kernel` and `task_os` of `10-SystemCall`, with the
traps of the hart, from the first round of the loop on. A task leaves the
hart by a call of `os_kernel`, or by the timer's interrupt, after which
`trap_vector` enters `os_kernel` (`Way`). The other traps, system calls among
them, lead back to the code they interrupt.

The tasks and the code of `os_main` around its calls are arbitrary. They keep
to their own memory, and they leave `gp`, `tp`, `mscratch` and `mtvec` alone
(`Keeps`). Other control registers they may write, as `basic_lock` does. The
timer's interrupt hits the code of a task here. What it does in the middle of
`task_go`, `task_os` and `os_main` is the matter of `Kernel.Owners`.

The C code of the kernel has its frames on the stack of the task that it comes
from. A task leaves the hart, and a trap hits it, while that stack has room for
them (`HasRoom`). A task that is interrupted in a leaf function goes on in its
caller and never takes the frame of that function back, so this can happen only a
number of times before the room is used up.
-/

set_option autoImplicit false

namespace MiniRiscvOs.Kernel.SystemCall

open MiniRiscvOs.Lib
open MultiTasking (Control Machine)

/-! ### The globals -/

/-- The bytes that `trap_vector` stores. -/
def trapFrameSize : Nat := 128

/-- The globals of `task.c`, and the block that `timer_init` gives to
`trap_vector`. No two overlap. -/
structure KernelGlobals extends TaskTables where
  ctxOs : Addr
  ctxNow : Addr
  saveArea : Addr
  others_apart : [(ctxOs, contextSize), (ctxNow, 4), (saveArea, trapFrameSize)].Pairwise
    fun p q => Apart p.1 p.2 q.1 q.2
  tables_apart : ∀ p ∈ [(ctxOs, contextSize), (ctxNow, 4), (saveArea, trapFrameSize)],
    ∀ q ∈ [(ctxTasks, maxTask * contextSize), (taskStack, maxTask * stackSize), (taskTop, 4)],
      Apart p.1 p.2 q.1 q.2

namespace KernelGlobals

variable (G : KernelGlobals)

/-- `x` belongs to a saved context, to `ctx_now` or to `taskTop`. -/
def IsGlobal (x : Addr) : Prop :=
  InRange G.ctxOs contextSize x ∨ InRange G.ctxTasks (maxTask * contextSize) x ∨
    InRange G.ctxNow 4 x ∨ InRange G.taskTop 4 x

/-- `x` belongs to the stack of task `i`. -/
def Stack (i : Nat) (x : Addr) : Prop := InRange (G.stack i) stackSize x

instance (i : Nat) (x : Addr) : Decidable (G.Stack i x) :=
  inferInstanceAs (Decidable (InRange _ _ _))

/-- `x` is not for `who` to write: a global, or in the stack of another task.
`none` is the OS. -/
def Foreign (who : Option Nat) (x : Addr) : Prop :=
  G.IsGlobal x ∨ ∃ j < maxTask, who ≠ some j ∧ G.Stack j x

/-- What `who` leaves alone from `h` to `g`. -/
structure Keeps (who : Option Nat) (h g : Hart) : Prop where
  mem : ∀ x, G.Foreign who x → g.mem x = h.mem x
  gp : g.reg .gp = h.reg .gp
  tp : g.reg .tp = h.reg .tp
  mscratch : g.csr .mscratch = h.csr .mscratch
  mtvec : g.csr .mtvec = h.csr .mtvec

/-- With the stack pointer `sp`, the stack of task `i` has room for `frames`
bytes more. -/
def Room (i frames : Nat) (sp : Word) : Prop :=
  ∀ x, InRange (sp - BitVec.ofNat 32 frames) frames x → G.Stack i x

/-- What `task_os` uses when task `i` calls it. -/
def taskGlobals (i : Nat) : TaskGlobals where
  ctxOs := G.ctxOs
  ctxNow := G.ctxNow
  stack x := decide (G.Stack i x)

/-- `user_init()`, which creates each of its tasks. -/
def userInit (m : Mem) (tasks : List Addr) : Mem :=
  tasks.foldl (fun m task => (G.taskCreate m task).2) m

/-- `h'` is `h` at the `sys_switch` of `task_go(i)`. -/
structure CallsTaskGo (i : Nat) (h h' : Hart) : Prop where
  old : h'.reg .a0 = G.ctxOs
  new : h'.reg .a1 = G.ctxTask i
  keeps : G.Keeps none { h with mem := store32 h.mem G.ctxNow (G.ctxTask i) } h'
  csr : h'.csr = h.csr

/-- `h'` is at the `sys_switch` of `task_os` in the call of `os_kernel` that `h`
is at, with at most `frames` bytes stored below `sp`. -/
structure CallsTaskOs (frames : Nat) (h h' : Hart) : Prop where
  old : h'.reg .a0 = load32 h.mem G.ctxNow
  new : h'.reg .a1 = G.ctxOs
  mem : ∀ x, ¬ InRange (h.reg .sp - BitVec.ofNat 32 frames) frames x →
    h'.mem x = store32 h.mem G.ctxNow G.ctxOs x
  gp : h'.reg .gp = h.reg .gp
  tp : h'.reg .tp = h.reg .tp
  csr : h'.csr = h.csr

end KernelGlobals

/-! ### The compiled code -/

/-- The compiled code of the kernel. `call` and `ret` are `os_kernel` and `task_os`,
cut at the call of `sys_switch` as in `OsKernelCode`. What they do is known where
their frames lie on the stack of a task. `own` is the memory that the C code of a
trap has for itself, on the stack of the interrupted code and elsewhere, and
`frames` bounds what either stores on that stack. -/
structure KernelCode (G : KernelGlobals) where
  platform : Platform
  frames : Nat
  call : Hart → Hart
  ret : Hart → Hart → Hart
  calls : ∀ i < maxTask, ∀ h, G.Room i frames (h.reg .sp) → G.CallsTaskOs frames h (call h)
  ret_pc : ∀ i < maxTask, ∀ h g, G.Room i frames (h.reg .sp) →
    Returned (G.taskGlobals i) (call h) g → (ret h g).pc = h.reg .ra &&& ~~~1#32
  ret_reg : ∀ i < maxTask, ∀ h g, G.Room i frames (h.reg .sp) →
    Returned (G.taskGlobals i) (call h) g →
    ∀ r, r.callerSaved = false → (ret h g).reg r = h.reg r
  own : Option Nat → Addr → Bool
  own_apart : ∀ who x, own who x = true →
    ¬ G.Foreign who x ∧ ¬ InRange G.saveArea trapFrameSize x

/-- How a task comes to `os_kernel`. -/
inductive Way where
  | call
  /-- The timer's interrupt, with what its handlers leave behind. -/
  | timer (l : Leftover)

section Code

variable {G : KernelGlobals} (C : KernelCode G)

/-- Task `i` at the first instruction of `os_kernel`. -/
def KernelCode.atOsKernel (i : Nat) (way : Way) (h : Hart) : Hart :=
  match way with
  | .call => h
  | .timer l => trap C.platform (C.own (some i)) l timerCause h

/-- There is room for the frames of the kernel on the stack of `who`. The stack of
the OS is always large enough. -/
def KernelCode.HasRoom (who : Option Nat) (h : Hart) : Prop :=
  ∀ i, who = some i → G.Room i C.frames (h.reg .sp)

/-- Task `i` can go this way. -/
def KernelCode.CanLeave (i : Nat) (way : Way) (h : Hart) : Prop :=
  C.HasRoom (some i) h ∧
    match way with
    | .call => h.pc = C.platform.osKernel
    | .timer _ => CanTake h .timer

/-- Task `i` at the `sys_switch` of `task_os`. -/
def KernelCode.atSwitch (i : Nat) (way : Way) (h : Hart) : Hart :=
  C.call (C.atOsKernel i way h)

/-- The trap leads back to the code that it interrupts, which is that of
`who`. The word that `sys_gethid` is to write is its own. -/
def KernelCode.LeadsBack (who : Option Nat) (cause : Word) (h : Hart) : Prop :=
  C.HasRoom who h ∧
    (Resumes cause ∨
      ((cause = 8#32 ∨ cause = 11#32) ∧
        (h.reg .a7 = 1#32 → h.reg .a0 ≠ 0#32 → ∀ x, InRange (h.reg .a0) 4 x →
          C.own who x = false ∧ ¬ InRange G.saveArea trapFrameSize x ∧ ¬ G.Foreign who x)))

end Code

/-! ### The machine -/

/-- What happens next. A switch of control shows the hart that calls
`sys_switch` and the hart that it returns to, and for a task also the hart
before it left. -/
inductive SchedEvent where
  /-- Code that writes no control register. -/
  | work
  /-- Code that writes control registers. -/
  | csrw
  /-- A trap that leads back. -/
  | trap (cause : Word) (l : Leftover)
  | activate (i : Nat) (saved entered : Hart)
  | leave (i : Nat) (way : Way) (task saved entered : Hart)
  /-- `current_task = (current_task + 1) % taskTop`. -/
  | next

/-- One step of the machine. -/
def schedStep {G : KernelGlobals} (C : KernelCode G) (s : Machine) (e : SchedEvent)
    (t : Machine) : Prop :=
  match e with
  | .work =>
      G.Keeps s.control.who s.hart t.hart ∧ t.hart.csr = s.hart.csr ∧
        t.control = s.control ∧ t.currentTask = s.currentTask
  | .csrw =>
      G.Keeps s.control.who s.hart t.hart ∧
        t.control = s.control ∧ t.currentTask = s.currentTask
  | .trap cause l =>
      C.LeadsBack s.control.who cause s.hart ∧
        t = { s with hart := trap C.platform (C.own s.control.who) l cause s.hart }
  | .activate i saved entered =>
      s.control = .osMain ∧ i = s.currentTask ∧ G.CallsTaskGo i s.hart saved ∧
        entered = sysSwitch saved ∧
        t = { hart := entered, control := .task i, currentTask := s.currentTask }
  | .leave i way task saved entered =>
      s.control = .task i ∧ task = s.hart ∧ C.CanLeave i way task ∧
        saved = C.atSwitch i way task ∧ entered = sysSwitch saved ∧
        t = { hart := entered, control := .back, currentTask := s.currentTask }
  | .next =>
      s.control = .back ∧
        t = { hart := s.hart, control := .osMain,
              currentTask := (s.currentTask + 1) % (load32 s.hart.mem G.taskTop).toNat }

/-- A call of `user_init`: the memory it finds and the tasks it creates. The
memory is arbitrary but for `taskTop`, and a function starts at an even
address. -/
structure TaskInit (G : KernelGlobals) where
  mem : Mem
  tasks : List Addr
  taskTop_zero : load32 mem G.taskTop = 0#32
  tasks_ne_nil : tasks ≠ []
  length_le : tasks.length ≤ maxTask
  even : ∀ task ∈ tasks, task &&& ~~~1#32 = task

/-- The kernel from the first round of `os_main` on. `timer_init` has set
`mscratch` and enabled the timer's interrupt. -/
def schedMachine {G : KernelGlobals} (C : KernelCode G) (U : TaskInit G) :
    System Machine SchedEvent where
  init s := s.hart.mem = G.userInit U.mem U.tasks ∧ s.hart.csr .mscratch = G.saveArea ∧
    CanTake s.hart .timer ∧ s.control = .osMain ∧ s.currentTask = 0
  step := schedStep C

end MiniRiscvOs.Kernel.SystemCall
