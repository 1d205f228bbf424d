import MiniRiscvOs.Kernel.Preempt
import MiniRiscvOs.Proofs.Trap

/-!
# `MiniRiscvOs.Proofs.Preempt`: where a preempted task goes on

The interrupted `pc` is saved in the trap's save area, and nothing reads it
from there. The task is resumed in `task_os`, which it never called, and
returns from `os_kernel` to the `ra` of the interrupted code
(`resumed_pc`). The context of `sys_switch` holds the callee-saved
registers, so those survive. The others are what the code in between leaves
in them.

So preemption is transparent to no task (`preemption_never_transparent`):
for each interrupted state some code that keeps to the calling convention
changes a register, and in all of them the task goes on at `ra`.
-/

set_option autoImplicit false

namespace MiniRiscvOs.Proofs

open MiniRiscvOs.Lib
open MiniRiscvOs.Kernel.SystemCall

/-! ### `sys_switch` -/

/-- The registers that `sys_switch` saves, with their offsets. -/
def switchFrame : Frame :=
  [(.ra, 0), (.sp, 4), (.s0, 8), (.s1, 12), (.s2, 16), (.s3, 20), (.s4, 24), (.s5, 28),
   (.s6, 32), (.s7, 36), (.s8, 40), (.s9, 44), (.s10, 48), (.s11, 52), (.a0, 56), (.a7, 60)]

/-- What is stored and what is loaded have the same offsets. -/
theorem switch_eq (h : Hart) : sysSwitch h = h.switch switchFrame .a0 .a1 := rfl

/-- The registers that `sys_switch` stores fit into `struct context`. -/
theorem switchFrame_fits : FrameFits switchFrame switchSize where
  slots :=
    { apart := by decide
      inside := by decide
      size_le := by decide }
  nodup := by decide

/-- `sys_switch` between two contexts that are apart. -/
theorem switch_switched (h : Hart)
    (hapart : Apart (h.reg .a0) switchSize (h.reg .a1) switchSize) :
    Switched switchFrame switchSize (h.reg .a0) (h.reg .a1) h (sysSwitch h) := by
  rw [switch_eq]
  exact h.switched switchFrame_fits (by decide) hapart

/-- The callee-saved registers are in the frame, but for `gp` and `tp`. -/
theorem mem_switchFrame {r : Reg} (hr : r.callerSaved = false) (hgp : r ≠ .gp) (htp : r ≠ .tp) :
    r ∈ switchFrame.map Prod.fst := by
  cases r with
  | gp => exact absurd rfl hgp
  | tp => exact absurd rfl htp
  | sp | s0 | s1 | s2 | s3 | s4 | s5 | s6 | s7 | s8 | s9 | s10 | s11 => decide
  | _ => exact absurd hr (by decide)

/-- Two harts with the same saved values agree on each saved register. -/
theorem reg_eq_of_saved_eq {f : Frame} {h g : Hart} (heq : g.saved f = h.saved f) {r : Reg}
    (hr : r ∈ f.map Prod.fst) : g.reg r = h.reg r := by
  obtain ⟨p, hp, rfl⟩ := List.mem_map.mp hr
  exact (g.saved_eq_iff f fun p => h.reg p.1).mp heq p hp

/-! ### The way of a preempted task -/

section Preempted

variable (S : Preempted)

/-- The layout of the globals, pair by pair. -/
theorem scratch_apart_ctxNow : Apart (S.hart.csr .mscratch) 128 S.globals.ctxNow 4 :=
  apart_of_layout S.apart 0 3 (by decide) (by simp)

/-- The context of the task is apart from that of `os_main`. -/
theorem ctx_apart_ctxOs : Apart S.ctx switchSize S.globals.ctxOs switchSize :=
  apart_of_layout S.apart 1 2 (by decide) (by simp)

/-- The trap enters `os_kernel` with the registers of the task, but for
`t6`, and with `ctx_now` still at its context. -/
theorem atOsKernel_spec (l : Leftover) :
    (S.atOsKernel l).pc = S.platform.osKernel ∧
    (∀ r, r ≠ .t6 → (S.atOsKernel l).reg r = S.hart.reg r) ∧
    load32 (S.atOsKernel l).mem S.globals.ctxNow = S.ctx := by
  have hown : ∀ x, InRange (S.hart.csr .mscratch) saveAreaSize x → S.own x = false :=
    S.own_apart (S.hart.csr .mscratch, 128) (by simp)
  -- The handler changes `mie`, and no memory.
  obtain ⟨r, hr⟩ : ∃ r, r = trapHandler S.platform S.hart.pc timerCause (S.hart.csr .mscratch)
      ((S.hart.takeTrap timerCause).run trapEntry) := ⟨_, rfl⟩
  have htrap := trap_spec l timerCause hown hr
  have hret : r.1 = S.platform.osKernel := by rw [hr]; rfl
  have hmem : r.2.mem = entryMem (S.hart.takeTrap timerCause) := by
    rw [← (trapEntry_spec (S.hart.takeTrap timerCause)).mem, hr]
    generalize (S.hart.takeTrap timerCause).run trapEntry = g
    rfl
  have hscratch : (S.hart.takeTrap timerCause).csr .mscratch = S.hart.csr .mscratch :=
    S.hart.takeTrap_csr _ (by decide) (by decide) (by decide)
  refine ⟨htrap.pc.trans hret, ?_, ?_⟩
  · intro q hq
    refine (htrap.reg q).trans ?_
    rw [hmem, ← hscratch, load32_entryMem _ hq]
    rfl
  · rw [← S.ctx_now]
    apply load32_congr
    intro x hx
    have harea : ¬ InRange (S.hart.csr .mscratch) saveAreaSize x :=
      (scratch_apart_ctxNow S).symm.not_inRange hx
    refine (htrap.mem x (S.own_apart (_, 4) (by simp) x hx)).trans ?_
    rw [hmem]
    exact entryMem_of_not_inRange _ (by rw [hscratch]; exact harea)

variable {S} {C : OsKernelCode S.globals} {l : Leftover}

/-- `task_os` saves the task in its context. -/
theorem inOs_spec :
    frameAt (S.inOs C l).mem S.ctx switchFrame = (C.call (S.atOsKernel l)).saved switchFrame ∧
    (∀ x, S.globals.stack x = true → (S.inOs C l).mem x = (C.call (S.atOsKernel l)).mem x) ∧
    (S.inOs C l).reg .gp = (C.call (S.atOsKernel l)).reg .gp ∧
    (S.inOs C l).reg .tp = (C.call (S.atOsKernel l)).reg .tp := by
  have hold : (C.call (S.atOsKernel l)).reg .a0 = S.ctx :=
    (C.old _).trans (atOsKernel_spec S l).2.2
  have hnew := C.new (S.atOsKernel l)
  have hswitch := switch_switched (C.call (S.atOsKernel l))
    (by rw [hold, hnew]; exact ctx_apart_ctxOs S)
  rw [hold, hnew] at hswitch
  refine ⟨hswitch.left, fun x hx => hswitch.frame x fun hin => ?_, hswitch.other _ (by decide),
    hswitch.other _ (by decide)⟩
  have hno := S.stack_apart (S.ctx, switchSize) (by simp) x hin
  exact absurd (hx.symm.trans hno) (by decide)

/-- A run elsewhere keeps what each of its steps keeps. -/
theorem elsewhere_run {h g : Hart} {es : List Unit} (hrun : S.elsewhere.Run h es g) :
    (∀ x, InRange S.ctx switchSize x ∨ S.globals.stack x = true → g.mem x = h.mem x) ∧
      g.reg .gp = h.reg .gp ∧ g.reg .tp = h.reg .tp := by
  induction hrun with
  | nil => exact ⟨fun _ _ => rfl, rfl, rfl⟩
  | snoc _ hstep ih =>
      obtain ⟨hmem, hgp, htp⟩ := hstep
      obtain ⟨ihmem, ihgp, ihtp⟩ := ih
      exact ⟨fun x hx => (hmem x hx).trans (ihmem x hx), hgp.trans ihgp, htp.trans ihtp⟩

/-- The `sys_switch` of `task_go` returns to `task_os` as from a call. -/
theorem returned_of_taskGo {h : Hart} (hgo : S.TaskGo C l h) :
    Returned S.globals (C.call (S.atOsKernel l)) (sysSwitch h) := by
  obtain ⟨⟨es, hrun⟩, hold, hnew⟩ := hgo
  -- The context holds what `task_os` stored, for nobody else writes it.
  obtain ⟨hctx, hstack, hgp, htp⟩ := inOs_spec (S := S) (C := C) (l := l)
  obtain ⟨hkept, hkeptGp, hkeptTp⟩ := elsewhere_run hrun
  have hswitch := switch_switched h (by rw [hold, hnew]; exact (ctx_apart_ctxOs S).symm)
  rw [hold, hnew] at hswitch
  have hsaved : (sysSwitch h).saved switchFrame
      = (C.call (S.atOsKernel l)).saved switchFrame := by
    rw [hswitch.entered, ← hctx]
    exact frameAt_congr switchFrame_fits fun x hx => hkept x (Or.inl hx)
  constructor
  · rw [hswitch.pc, reg_eq_of_saved_eq hsaved (r := .ra) (by decide)]
  · intro r hr
    -- `gp` and `tp` are in no context. They stay because nobody writes them.
    by_cases hrgp : r = .gp
    · subst hrgp
      rw [hswitch.other _ (by decide), hkeptGp, hgp]
    · by_cases hrtp : r = .tp
      · subst hrtp
        rw [hswitch.other _ (by decide), hkeptTp, htp]
      · exact reg_eq_of_saved_eq hsaved (mem_switchFrame hr hrgp hrtp)
  · intro x hx
    have hos : ¬ InRange S.globals.ctxOs switchSize x := by
      intro hin
      have hno := S.stack_apart (S.globals.ctxOs, switchSize) (by simp) x hin
      exact absurd (hx.symm.trans hno) (by decide)
    rw [hswitch.frame x hos, hkept x (Or.inr hx), hstack x hx]

/-- The task goes on where the `ra` of the interrupted code points, whatever
the interrupted `pc` was. -/
theorem resumed_pc {h : Hart} (hgo : S.TaskGo C l h) :
    (S.resumed C l h).pc = S.hart.reg .ra &&& ~~~1#32 := by
  have hra : (S.atOsKernel l).reg .ra = S.hart.reg .ra :=
    (atOsKernel_spec S l).2.1 .ra (by decide)
  rw [← hra]
  exact C.ret_pc _ _ (returned_of_taskGo hgo)

end Preempted

/-! ### Code that changes every register it may -/

/-- Code of `os_kernel` that leaves `v` in the registers it may change. -/
def leavingCode (G : TaskGlobals) (v : Reg → Word) : OsKernelCode G where
  call h :=
    { (h.setReg .a0 (load32 h.mem G.ctxNow)).setReg .a1 G.ctxOs with
      mem := store32 h.mem G.ctxNow G.ctxOs }
  ret h g :=
    { g with
      pc := h.reg .ra &&& ~~~1#32
      reg := fun r => if r.callerSaved then v r else h.reg r }
  old _ := rfl
  new _ := rfl
  mem _ _ _ := rfl
  ret_pc _ _ _ := rfl
  ret_reg h g _ r hr := by
    show (if r.callerSaved = true then v r else h.reg r) = h.reg r
    rw [hr]
    rfl

/-- The arguments of `sys_switch`. -/
def withArgs (h : Hart) (old new : Addr) : Hart := (h.setReg .a0 old).setReg .a1 new

/-- The first argument. -/
theorem withArgs_old (h : Hart) (old new : Addr) : (withArgs h old new).reg .a0 = old := by
  rw [withArgs, Hart.setReg_reg_of_ne _ _ (by decide), Hart.setReg_reg_self]

/-- The second argument. -/
theorem withArgs_new (h : Hart) (old new : Addr) : (withArgs h old new).reg .a1 = new :=
  Hart.setReg_reg_self _ _ _

/-- The arguments are not among what is to be left alone. -/
theorem elsewhere_withArgs (S : Preempted) (h : Hart) (old new : Addr) :
    S.elsewhere.step h () (withArgs h old new) :=
  ⟨fun _ _ => rfl, rfl, rfl⟩

/-- The OS can activate the task right after the preemption. -/
theorem taskGo_atOnce (S : Preempted) (C : OsKernelCode S.globals) (l : Leftover) :
    S.TaskGo C l (withArgs (S.inOs C l) S.globals.ctxOs S.ctx) where
  later := ⟨[()], System.Run.single (elsewhere_withArgs S _ _ _)⟩
  old := withArgs_old _ _ _
  new := withArgs_new _ _ _

/-- Preemption is transparent to no task. Wherever a task is interrupted, it
goes on at its `ra`, on every path that keeps to the calling convention, and
some such path also changes a register. -/
theorem preemption_never_transparent (S : Preempted) :
    (∀ (C : OsKernelCode S.globals) (l : Leftover) (h : Hart), S.TaskGo C l h →
      (S.resumed C l h).pc = S.hart.reg .ra &&& ~~~1#32) ∧
    ¬ ∀ (C : OsKernelCode S.globals) (l : Leftover) (h : Hart), S.TaskGo C l h →
      S.Transparent C l h := by
  refine ⟨fun C l h hgo => resumed_pc hgo, fun hall => ?_⟩
  -- Code that flips the bits of the registers it may change.
  obtain ⟨C, hC⟩ : ∃ C, C = leavingCode S.globals fun r => ~~~S.hart.reg r := ⟨_, rfl⟩
  obtain ⟨l⟩ : Nonempty Leftover := ⟨⟨fun _ => 0#32, fun _ => 0#8⟩⟩
  obtain ⟨-, hreg⟩ := hall C l _ (taskGo_atOnce S C l)
  generalize withArgs (S.inOs C l) S.globals.ctxOs S.ctx = h at hreg
  have hflip : (S.resumed C l h).reg .t0 = ~~~S.hart.reg .t0 := by rw [hC]; rfl
  have heq : S.hart.reg .t0 = ~~~S.hart.reg .t0 := (hreg .t0).symm.trans hflip
  -- A word is not its own complement.
  have hbit := congrArg (fun w => w.getLsbD 0) heq
  simp at hbit

/-- A task interrupted at `0x80000400` with `ra` at `0x80000300`. Its stack
lies behind the kernel's globals. -/
def interruptedTask : Preempted where
  platform := { osKernel := 0x80000100#32, mhartid := 0#32 }
  hart :=
    { reg := fun r => if r = .ra then 0x80000300#32 else 0#32
      csr := runningCsr
      pc := 0x80000400#32
      mem := store32 (fun _ => 0#8) 0x80003300#32 0x80003040#32 }
  ctx := 0x80003040#32
  globals :=
    { ctxOs := 0x80003000#32
      ctxNow := 0x80003300#32
      stack := fun x => decide (InRange 0x80004000#32 1024 x) }
  own _ := false
  ctx_now := load32_store32_same _ _ _
  apart := by decide
  own_apart _ _ _ _ := rfl
  stack_apart p hp x hx := by
    have hapart : Apart p.1 p.2 0x80004000#32 1024 :=
      (show ∀ p ∈ [(0x80003040#32, switchSize), (0x80003000#32, switchSize), (0x80003300#32, 4)],
        Apart p.1 p.2 0x80004000#32 1024 by decide) p hp
    exact decide_eq_false (hapart.not_inRange hx)

/-- This task is activated again, and never goes on where it was
interrupted. -/
theorem interruptedTask_lost :
    (∃ (C : OsKernelCode interruptedTask.globals) (l : Leftover) (h : Hart),
      interruptedTask.TaskGo C l h) ∧
    ¬ ∃ (C : OsKernelCode interruptedTask.globals) (l : Leftover) (h : Hart),
      interruptedTask.TaskGo C l h ∧ interruptedTask.Transparent C l h := by
  constructor
  · exact ⟨leavingCode _ fun _ => 0#32, ⟨fun _ => 0#32, fun _ => 0#8⟩, _, taskGo_atOnce _ _ _⟩
  -- It goes on at `0x80000300`.
  · rintro ⟨C, l, h, hgo, hpc, -⟩
    rw [resumed_pc hgo] at hpc
    exact absurd hpc (by decide)

end MiniRiscvOs.Proofs
