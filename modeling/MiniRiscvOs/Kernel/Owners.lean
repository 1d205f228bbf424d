import MiniRiscvOs.Kernel.Preempt

/-!
# `MiniRiscvOs.Kernel.Owners`: whose state a context holds

`task.c` and `os.c` of `10-SystemCall` with the timer's interrupt, seen by
a reader who only asks whose values are where. There is the flow of
`os_main` and that of each task. Each register that `sys_switch` moves, and
each slot of a context, has the flow that computed its value for a tag.

A step is one instruction, as far as it matters: the read and the stores of
`ctx_now`, and each instruction of `sys_switch`. Interrupts are enabled at
all of them. The timer's interrupt leads from anywhere to `os_kernel`,
because `trap_handler` returns that address, with the registers as they
are.

When the interrupted flow has its turn again, `os_kernel` returns to what was
in `ra`, with `sp` and the callee-saved registers of the interruption. Where
`ra` leads into the function whose frame these are, the flow is in its own
code (`Ctl.run`). In a leaf function, or before the first call of a function,
`ra` leads into the caller, and from then on the caller runs in a frame that
is not its own. Such a flow is `astray`, and nothing is known of what it does.
-/

set_option autoImplicit false

namespace MiniRiscvOs.Kernel.SystemCall

open MiniRiscvOs.Lib

/-- A flow of control, and the context that belongs to it: `ctx_os` or
`ctx_tasks[i]`. -/
inductive Owner where
  | os
  | task (i : Nat)
deriving DecidableEq, Repr

/-- Where the hart is. -/
inductive Ctl where
  /-- In `os_main` or in the code of a task. -/
  | run
  /-- In `task_go(i)`, before the store to `ctx_now`. -/
  | goEntry (i : Nat)
  /-- In `os_kernel` or `task_os`, before the read of `ctx_now`. -/
  | osEntry
  /-- In `task_os`, with `ctx_now` read and not yet overwritten. -/
  | osRead (ctx : Option Owner)
  /-- Behind the store to `ctx_now`, with `is` left of
  `sys_switch(old, new)`. -/
  | switch (old : Option Owner) (new : Owner) (is : List Instr)
deriving DecidableEq, Repr

/-- The kernel as tags. `ctxNow` is `none` for the null pointer. A slot
that was never saved, and a register loaded from one, have no tag. -/
structure Tags where
  ctl : Ctl
  ctxNow : Option Owner
  reg : Reg → Option Owner
  slot : Owner → Nat → Option Owner
  /-- The flow goes on, or will, in a frame of another function. -/
  astray : Owner → Bool

namespace Tags

/-- The flow on whose stack the hart runs. -/
def runner (s : Tags) : Option Owner := s.reg .sp

/-- One instruction of `sys_switch(old, new)`. A store through the null
pointer reaches no context. -/
def exec (s : Tags) (old : Option Owner) (new : Owner) : Instr → Tags
  | .sw src off _ =>
      match old with
      | some c => { s with slot := Function.update s.slot c
                            (Function.update (s.slot c) off (s.reg src)) }
      | none => s
  | .lw dst off _ => { s with reg := Function.update s.reg dst (s.slot new off) }
  | .csrrw _ _ _ | .csrw _ _ | .csrr _ _ => s

/-- The store to `ctx_now`, and the call of `sys_switch(old, new)`. The flow
that runs computes the arguments. -/
def callSwitch (s : Tags) (now : Owner) (old : Option Owner) (new : Owner) : Tags :=
  { s with
    ctl := .switch old new (ctxSave .a0 ++ ctxLoad .a1)
    ctxNow := some now
    reg := Function.update s.reg .a0 s.runner }

/-- The timer's interrupt. After one in a callee the flow that runs will go on
in a wrong frame. -/
def interrupt (s : Tags) (callee : Bool) : Tags :=
  { s with
    ctl := .osEntry
    astray := fun w => s.astray w || (callee && decide (s.runner = some w)) }

/-- The next instruction of the kernel. -/
def next (s : Tags) : Tags :=
  match s.ctl with
  | .run => s
  | .goEntry i => s.callSwitch (.task i) (some .os) (.task i)
  | .osEntry => { s with ctl := .osRead s.ctxNow }
  | .osRead ctx => s.callSwitch .os ctx .os
  | .switch old new (i :: is) => { s.exec old new i with ctl := .switch old new is }
  | .switch _ _ [] => { s with ctl := .run }

end Tags

/-- What happens next. -/
inductive TagEvent where
  /-- One more instruction of the kernel. -/
  | instr
  /-- `os_main` calls `task_go(i)`. -/
  | go (i : Nat)
  /-- A task calls `os_kernel`. -/
  | yield
  /-- The timer's interrupt. With `callee` it arrives in a function whose
  caller `ra` leads into, and `sp` and `s0` are the frame of the callee. -/
  | timer (callee : Bool)
  /-- A flow that is astray makes a step. -/
  | stray
deriving DecidableEq, Repr

/-- One step. Which task is next does not matter here: in its own frame
`os_main` finds a `current_task` below `n`. In `sys_switch` there is no frame,
and `ra` leads into the function that called it. -/
def tagStep (n : Nat) (s : Tags) (e : TagEvent) (t : Tags) : Prop :=
  match e with
  | .instr => t = s.next
  | .go i => s.ctl = .run ∧ s.runner = some .os ∧ i < n ∧ t = { s with ctl := .goEntry i }
  | .yield => s.ctl = .run ∧ (∃ i, s.runner = some (.task i)) ∧ t = { s with ctl := .osEntry }
  | .timer callee => (callee = true → ∀ old new is, s.ctl ≠ .switch old new is) ∧
      t = s.interrupt callee
  | .stray => s.ctl = .run ∧ ∃ w, s.runner = some w ∧ s.astray w = true

end MiniRiscvOs.Kernel.SystemCall
