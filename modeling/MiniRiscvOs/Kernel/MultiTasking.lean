import MiniRiscvOs.Lib.Rv32
import MiniRiscvOs.Lib.Coroutine

/-!
# `MiniRiscvOs.Kernel.MultiTasking`: tasks that give up the processor

`task.c`, `os.c` and `sys_switch` of `03-MultiTasking`. There are no
interrupts. `os_main` activates the tasks in turn with `task_go`, and a task
comes back with `os_kernel`, which is `task_os`. Both end in `sys_switch`,
which stores the callee-saved registers in one `struct context` and loads
them from another.

The tasks, and the code of `os_main` around its calls, are arbitrary: one
`work` step changes the hart and the memory in any way that leaves alone
what the running party does not own (`Globals.Keeps`). What the compiler
makes of `task_go` and `task_os` is arbitrary in the same way, up to the
arguments it passes to `sys_switch` and the store to `ctx_now`.
-/

set_option autoImplicit false

namespace MiniRiscvOs.Kernel.MultiTasking

open MiniRiscvOs.Lib

/-! ### `sys.s` -/

/-- The macro `ctx_save`. -/
def ctxSave (base : Reg) : List Instr :=
  [.sw .ra 0 base, .sw .sp 4 base,
   .sw .s0 8 base, .sw .s1 12 base, .sw .s2 16 base, .sw .s3 20 base,
   .sw .s4 24 base, .sw .s5 28 base, .sw .s6 32 base, .sw .s7 36 base,
   .sw .s8 40 base, .sw .s9 44 base, .sw .s10 48 base, .sw .s11 52 base]

/-- The macro `ctx_load`. -/
def ctxLoad (base : Reg) : List Instr :=
  [.lw .ra 0 base, .lw .sp 4 base,
   .lw .s0 8 base, .lw .s1 12 base, .lw .s2 16 base, .lw .s3 20 base,
   .lw .s4 24 base, .lw .s5 28 base, .lw .s6 32 base, .lw .s7 36 base,
   .lw .s8 40 base, .lw .s9 44 base, .lw .s10 48 base, .lw .s11 52 base]

/-- `sys_switch(old, new)`, with its arguments in `a0` and `a1`. -/
def sysSwitch (h : Hart) : Hart := (h.run (ctxSave .a0 ++ ctxLoad .a1)).ret

/-! ### `task.c` -/

/-- `sizeof(struct context)`. -/
def ctxSize : Nat := 56

/-- `MAX_TASK` -/
def maxTask : Nat := 10

/-- `STACK_SIZE` -/
def stackSize : Nat := 1024

/-- The globals of `task.c`, where the linker put them. No two overlap. -/
structure Globals where
  ctxOs : Addr
  ctxTasks : Addr
  ctxNow : Addr
  taskTop : Addr
  taskStack : Addr
  apart : [(ctxOs, ctxSize), (ctxTasks, maxTask * ctxSize), (ctxNow, 4), (taskTop, 4),
    (taskStack, maxTask * stackSize)].Pairwise fun p q => Apart p.1 p.2 q.1 q.2

namespace Globals

variable (G : Globals)

/-- `&ctx_tasks[i]`. -/
def ctxTask (i : Nat) : Addr := G.ctxTasks + BitVec.ofNat 32 (i * ctxSize)

/-- `&task_stack[i][0]`. -/
def stack (i : Nat) : Addr := G.taskStack + BitVec.ofNat 32 (i * stackSize)

/-- `&task_stack[i][STACK_SIZE - 1]`. -/
def stackTop (i : Nat) : Addr := G.stack i + BitVec.ofNat 32 (stackSize - 1)

/-- `x` belongs to a saved context, to `ctx_now` or to `taskTop`. -/
def IsGlobal (x : Addr) : Prop :=
  InRange G.ctxOs ctxSize x ∨ InRange G.ctxTasks (maxTask * ctxSize) x ∨
    InRange G.ctxNow 4 x ∨ InRange G.taskTop 4 x

/-- `x` belongs to the stack of task `i`. -/
def Stack (i : Nat) (x : Addr) : Prop := InRange (G.stack i) stackSize x

/-- From `m` to `m'` the kernel's globals do not change, and neither does a
stack that is not that of task `who`. With `none` for the OS, no stack of a
task does. -/
def Keeps (who : Option Nat) (m m' : Mem) : Prop :=
  ∀ x, G.IsGlobal x ∨ (∃ j < maxTask, who ≠ some j ∧ G.Stack j x) → m' x = m x

/-- `task_create(task)`. -/
def taskCreate (m : Mem) (task : Addr) : Mem :=
  let top := load32 m G.taskTop
  let i := top.toNat
  let m := store32 m G.taskTop (top + 1#32)
  let m := store32 m (G.ctxTask i) task
  store32 m (G.ctxTask i + BitVec.ofNat 32 4) (G.stackTop i)

/-- `user_init()`, which creates each of its tasks. -/
def userInit (m : Mem) (tasks : List Addr) : Mem := tasks.foldl G.taskCreate m

/-- `h'` is `h` at the `sys_switch` of `task_go(i)`. -/
structure TaskGo (i : Nat) (h h' : Hart) : Prop where
  old : h'.reg .a0 = G.ctxOs
  new : h'.reg .a1 = G.ctxTask i
  keeps : G.Keeps none (store32 h.mem G.ctxNow (G.ctxTask i)) h'.mem

/-- `h'` is `h` at the `sys_switch` of `task_os()`, called by task `i`. -/
structure TaskOs (i : Nat) (h h' : Hart) : Prop where
  old : h'.reg .a0 = load32 h.mem G.ctxNow
  new : h'.reg .a1 = G.ctxOs
  keeps : G.Keeps (some i) (store32 h.mem G.ctxNow G.ctxOs) h'.mem

end Globals

/-! ### `os.c` -/

/-- Who has control. -/
inductive Control where
  /-- `os_main`, before it activates a task. -/
  | osMain
  /-- `os_main`, after `task_go` and before it computes the next task. -/
  | back
  | task (i : Nat)
deriving DecidableEq, Repr

/-- The task that runs, if one does. -/
def Control.who : Control → Option Nat
  | .osMain | .back => none
  | .task i => some i

/-- The machine. `currentTask` is the variable of `os_main`. -/
structure Machine where
  hart : Hart
  control : Control
  currentTask : Nat

/-- What happens next. A switch of control shows the hart that calls
`sys_switch` and the hart that it returns to. -/
inductive Event where
  | work
  | activate (i : Nat) (saved entered : Hart)
  | yield (i : Nat) (saved entered : Hart)
  | next

/-- One step of the machine. -/
def Globals.step (G : Globals) (s : Machine) (e : Event) (t : Machine) : Prop :=
  match e with
  | .work =>
      G.Keeps s.control.who s.hart.mem t.hart.mem ∧
        t.control = s.control ∧ t.currentTask = s.currentTask
  | .activate i saved entered =>
      s.control = .osMain ∧ i = s.currentTask ∧ G.TaskGo i s.hart saved ∧
        entered = sysSwitch saved ∧
        t = { hart := entered, control := .task i, currentTask := s.currentTask }
  | .yield i saved entered =>
      s.control = .task i ∧ G.TaskOs i s.hart saved ∧ entered = sysSwitch saved ∧
        t = { hart := entered, control := .back, currentTask := s.currentTask }
  | .next =>
      s.control = .back ∧
        t = { hart := s.hart, control := .osMain,
              currentTask := (s.currentTask + 1) % (load32 s.hart.mem G.taskTop).toNat }

/-- A call of `user_init`: the memory it finds and the tasks it creates.
The memory is arbitrary but for `taskTop`, and a function starts at an even
address. -/
structure UserInit (G : Globals) where
  mem : Mem
  tasks : List Addr
  taskTop_zero : load32 mem G.taskTop = 0#32
  tasks_ne_nil : tasks ≠ []
  length_le : tasks.length ≤ maxTask
  even : ∀ task ∈ tasks, task &&& ~~~1#32 = task

/-- The kernel from the first round of `os_main` on. -/
def machine (G : Globals) (U : UserInit G) : System Machine Event where
  init s := s.hart.mem = G.userInit U.mem U.tasks ∧ s.control = .osMain ∧ s.currentTask = 0
  step := G.step

end MiniRiscvOs.Kernel.MultiTasking
