import MiniRiscvOs.Lib.Memory

/-!
# `MiniRiscvOs.Kernel.Spinlock`: tasks that share a counter under a spinlock

`lock.c`, `atomic_swap` of `sys.s`, and the tasks `user_task2` and
`user_task3` of `06-Spinlock`. Both tasks repeat `lock_acquire(&lock)`, a
short section, `lock_free(&lock)`. In `user_task2` the section is
`shared_var++`, which the compiler makes a load, an add and a store. In
`user_task3` it prints.

A task is preempted between any two instructions, so one step of the
system is one instruction of one task. `SpinPc` is the instruction a task
runs next, with the register the following instructions read. The
`amoswap` is the only instruction that reads and writes memory in one step.
-/

set_option autoImplicit false

namespace MiniRiscvOs.Kernel

open MiniRiscvOs.Lib

/-- The next instruction of a task. -/
inductive SpinPc where
  /-- Code that touches neither the lock nor `shared_var`. -/
  | outside
  /-- `li a5, 1` in `atomic_swap`. -/
  | li
  /-- `amoswap.w.aq a5, a5, 0(a0)`. -/
  | amoswap (a5 : Word)
  /-- `mv a0, a5`. -/
  | mv (a5 : Word)
  /-- `ret` from `atomic_swap`. -/
  | ret (a0 : Word)
  /-- The test `!atomic_swap(lock)` in `lock_acquire`. -/
  | branch (a0 : Word)
  /-- The load of `shared_var++`. -/
  | load
  /-- The add of `shared_var++`. -/
  | add (x : Word)
  /-- The store of `shared_var++`. -/
  | store (x : Word)
  /-- `lib_puts` of `user_task3`, with the lock held. -/
  | puts
  /-- The store of `lock_free`. -/
  | unlock
deriving DecidableEq, Repr

/-- The shared words and the tasks. `increments` is a ghost counter of the
stores of `shared_var++`. -/
structure Spin (ι : Type) where
  locked : Word
  sharedVar : Word
  pc : ι → SpinPc
  increments : Nat

/-- After `lock_init`, with no task in its loop yet. -/
def lockInit (ι : Type) : Spin ι where
  locked := 0#32
  sharedVar := 500#32
  pc := fun _ => .outside
  increments := 0

variable {ι : Type} [DecidableEq ι]

/-- Task `t` goes on to `pc`. -/
def Spin.goto (s : Spin ι) (t : ι) (pc : SpinPc) : Spin ι :=
  { s with pc := Function.update s.pc t pc }

/-- One instruction of task `t`. The tasks with `adds t` run `user_task2`,
the others `user_task3`. -/
def spinStep (adds : ι → Bool) (s : Spin ι) (t : ι) : Spin ι :=
  match s.pc t with
  | .outside => s.goto t .li
  | .li => s.goto t (.amoswap 1#32)
  | .amoswap a5 => { s.goto t (.mv s.locked) with locked := a5 }
  | .mv a5 => s.goto t (.ret a5)
  | .ret a0 => s.goto t (.branch a0)
  | .branch a0 =>
      if a0 = 0#32 then s.goto t (if adds t then .load else .puts)
      else s.goto t .li
  | .load => s.goto t (.add s.sharedVar)
  | .add x => s.goto t (.store (x + 1#32))
  | .store x =>
      { s.goto t .unlock with sharedVar := x, increments := s.increments + 1 }
  | .puts => s.goto t .unlock
  | .unlock => { s.goto t .outside with locked := 0#32 }

/-- The state after an interleaving: the tasks step in the order of the
list. -/
def spinRun (adds : ι → Bool) (schedule : List ι) : Spin ι :=
  schedule.foldl (spinStep adds) (lockInit ι)

/-- Between the return of `lock_acquire` and `lock_free`. -/
def SpinPc.InSection : SpinPc → Prop
  | .load | .add _ | .store _ | .puts | .unlock => True
  | _ => False

end MiniRiscvOs.Kernel
