import MiniRiscvOs.Lib.Memory
import MiniRiscvOs.Lib.System

/-!
# `MiniRiscvOs.Kernel.TaskTable`: creating tasks

`task.c` and the loop of `os_main` of `10-SystemCall`. The number of tasks,
`taskTop`, is a word in memory, as are the contexts and the stacks. Tasks
may be created at any time, before `os_main` and while it runs. A call of
`task_create` is one step. Between the calls the kernel and the tasks
change the memory in any way that leaves `taskTop` alone.
-/

set_option autoImplicit false

namespace MiniRiscvOs.Kernel.SystemCall

open MiniRiscvOs.Lib

/-- `sizeof(struct context)`. -/
def contextSize : Nat := 124

/-- `MAX_TASK` -/
def maxTask : Nat := 10

/-- `STACK_SIZE` -/
def stackSize : Nat := 1024

/-- The globals of `task.c` that `task_create` uses, where the linker put
them. No two overlap. -/
structure TaskTables where
  ctxTasks : Addr
  taskStack : Addr
  taskTop : Addr
  apart : [(ctxTasks, maxTask * contextSize), (taskStack, maxTask * stackSize),
    (taskTop, 4)].Pairwise fun p q => Apart p.1 p.2 q.1 q.2

namespace TaskTables

variable (G : TaskTables)

/-- `&ctx_tasks[i]`. -/
def ctxTask (i : Nat) : Addr := G.ctxTasks + BitVec.ofNat 32 (i * contextSize)

/-- `&ctx_tasks[i].sp`. -/
def ctxTaskSp (i : Nat) : Addr := G.ctxTask i + BitVec.ofNat 32 4

/-- `&task_stack[i][0]`. -/
def stack (i : Nat) : Addr := G.taskStack + BitVec.ofNat 32 (i * stackSize)

/-- `task_create(task)`: what it returns, and the memory after it. -/
def taskCreate (m : Mem) (task : Addr) : Nat × Mem :=
  let top := load32 m G.taskTop
  let i := top.toNat
  let m := store32 m G.taskTop (top + 1#32)
  let m := store32 m (G.ctxTask i) task
  (i, store32 m (G.ctxTaskSp i) (G.stack i + BitVec.ofNat 32 (stackSize - 1)))

end TaskTables

/-- The memory and `os_main`. `back` is between the return of `task_go` and
the choice of the next task. `created` are the slots that `task_create` has
returned, in order. -/
structure TaskState where
  mem : Mem
  currentTask : Nat
  back : Bool
  created : List Nat

/-- What happens next. -/
inductive TaskEvent where
  /-- `task_create(task)`. -/
  | create (task : Addr)
  /-- `task_go(i)`, called by `os_main`. -/
  | go (i : Nat)
  /-- `current_task = (current_task + 1) % taskTop`. -/
  | next
  /-- Other code leaves the memory `m`. -/
  | work (m : Mem)

/-- One step. A remainder by zero is its dividend, as on RISC-V. -/
def TaskTables.step (G : TaskTables) (s : TaskState) (e : TaskEvent) (t : TaskState) : Prop :=
  match e with
  | .create task =>
      t = { s with mem := (G.taskCreate s.mem task).2
                   created := s.created ++ [(G.taskCreate s.mem task).1] }
  | .go i => s.back = false ∧ i = s.currentTask ∧ t = { s with back := true }
  | .next =>
      s.back = true ∧
        t = { s with back := false
                     currentTask := (s.currentTask + 1) % (load32 s.mem G.taskTop).toNat }
  | .work m => load32 m G.taskTop = load32 s.mem G.taskTop ∧ t = { s with mem := m }

/-- The kernel from boot on. The memory is arbitrary but for `taskTop`. -/
def taskSystem (G : TaskTables) : System TaskState TaskEvent where
  init s := load32 s.mem G.taskTop = 0#32 ∧ s.currentTask = 0 ∧ s.back = false ∧ s.created = []
  step := G.step

end MiniRiscvOs.Kernel.SystemCall
