import MiniRiscvOs.Kernel.Preemptive
import MiniRiscvOs.Proofs.Exceptions
import MiniRiscvOs.Proofs.MultiTasking
import MiniRiscvOs.Proofs.Preempt
import MiniRiscvOs.Proofs.TaskTable

/-!
# `MiniRiscvOs.Proofs.Preemptive`: round-robin under the timer

The machine of `Kernel.Preemptive` is a simulation of `Coroutines.system`.
What a task leaves behind (`LeftBehind`) is the registers of its context, `gp` and
`tp`, and its stack. The result is `preemptive_roundRobin`: the tasks have their
turns in order, whether they leave by a call or are interrupted, and what a task
leaves behind is what it finds.

The other side of it is where an interrupted task goes on: `os_kernel` returns
to the `ra` of the interrupted code, as from a call that was never made.

`preemptive_progress` says that no task can keep the hart. Only code that writes
control registers can disable the timer's interrupt (`armed_step`). While it is
enabled and the stacks have room for the frames of the kernel (`Interruptible`), the
kernel alone leads to the next turn of any task.
-/

set_option autoImplicit false

namespace MiniRiscvOs.Proofs

open MiniRiscvOs.Lib
open MiniRiscvOs.Kernel.SystemCall
open MiniRiscvOs.Kernel.MultiTasking (Control Machine)

/-! ### The contexts -/

/-- The registers that `sys_switch` stores fit into `struct context`. -/
theorem switchFrame_fits_context : FrameFits switchFrame contextSize where
  slots :=
    { apart := by decide
      inside := by decide
      size_le := by decide }
  nodup := by decide

/-- `sys_switch` between two contexts that do not overlap. -/
theorem switch_contexts (h : Hart)
    (hapart : Apart (h.reg .a0) contextSize (h.reg .a1) contextSize) :
    Switched switchFrame contextSize (h.reg .a0) (h.reg .a1) h (sysSwitch h) := by
  rw [switch_eq]
  exact h.switched switchFrame_fits_context (by decide) hapart

section Layout

variable (G : KernelGlobals) {who : Option Nat} {x : Addr}

/-- No two of the globals that a switch uses overlap. -/
theorem globals_apart :
    [(G.ctxOs, contextSize), (G.ctxTasks, maxTask * contextSize), (G.ctxNow, 4), (G.taskTop, 4),
      (G.taskStack, maxTask * stackSize)].Pairwise fun p q => Apart p.1 p.2 q.1 q.2 := by
  have hothers := G.others_apart
  have htables := G.tables_apart
  have htasks := G.apart
  simp only [List.pairwise_cons, List.mem_cons, List.not_mem_nil, forall_eq_or_imp, or_false,
    List.Pairwise.nil, false_implies, implies_true, and_true, forall_eq] at hothers htables htasks ⊢
  obtain ⟨⟨hosNow, -⟩, -⟩ := hothers
  obtain ⟨⟨hosTasks, hosStack, hosTop⟩, ⟨hnowTasks, hnowStack, hnowTop⟩, -⟩ := htables
  obtain ⟨⟨htasksStack, htasksTop⟩, hstackTop⟩ := htasks
  exact ⟨⟨hosTasks, hosNow, hosTop, hosStack⟩, ⟨hnowTasks.symm, htasksTop, htasksStack⟩,
    ⟨hnowTop, hnowStack⟩, hstackTop.symm⟩

/-- The globals as the layout of a switch. -/
def kernelTables : SwitchLayout where
  contextTable := contextsOf G.toTaskTables
  stackTable := stacksOf G.toTaskTables
  scheduler := G.ctxOs
  current := G.ctxNow
  top := G.taskTop
  same_count := rfl
  apart := globals_apart G

variable {G}

/-- The save area of the trap is nobody's. -/
theorem foreign_not_saveArea (hx : G.Foreign who x) :
    ¬ InRange G.saveArea trapFrameSize x := by
  have hos : Apart G.ctxOs contextSize G.saveArea trapFrameSize :=
    apart_of_layout G.others_apart 0 2 (by decide) (by simp)
  have hnow : Apart G.ctxNow 4 G.saveArea trapFrameSize :=
    apart_of_layout G.others_apart 1 2 (by decide) (by simp)
  have htables : ∀ q ∈ [(G.ctxTasks, maxTask * contextSize), (G.taskStack, maxTask * stackSize),
      (G.taskTop, 4)], Apart G.saveArea trapFrameSize q.1 q.2 :=
    G.tables_apart (G.saveArea, trapFrameSize) (by simp)
  rcases hx with (hin | hin | hin | hin) | ⟨j, hj, -, hin⟩
  · exact hos.not_inRange hin
  · exact (htables (G.ctxTasks, maxTask * contextSize) (by simp)).symm.not_inRange hin
  · exact hnow.not_inRange hin
  · exact (htables (G.taskTop, 4) (by simp)).symm.not_inRange hin
  · have hstacks := htables (G.taskStack, maxTask * stackSize) (by simp)
    exact hstacks.symm.not_inRange ((stacksOf G.toTaskTables).holds_of_entry hj hin)

end Layout

/-! ### What happens to others -/

/-- From `h` to `g` nothing has happened to those who do not run. -/
structure SparesOthers (G : KernelGlobals) (who : Option Nat) (h g : Hart) : Prop where
  mem : ∀ x, G.Foreign who x → g.mem x = h.mem x
  gp : g.reg .gp = h.reg .gp
  tp : g.reg .tp = h.reg .tp
  mscratch : g.csr .mscratch = h.csr .mscratch

/-- And the timer's interrupt is still enabled if it was. -/
structure SparesAll (G : KernelGlobals) (who : Option Nat) (h g : Hart) : Prop extends
    SparesOthers G who h g where
  armed : CanTake h .timer → CanTake g .timer

/-- Code that writes no control register leaves the timer alone. -/
theorem canTake_of_csr {h g : Hart} (hcsr : g.csr = h.csr) {i : Irq} (h : CanTake h i) :
    CanTake g i := by
  unfold CanTake at *
  rwa [hcsr]

section Traps

variable {G : KernelGlobals} {who : Option Nat} {h g : Hart}

/-- Who keeps the rest has done nothing to the others. -/
theorem spares_of_keeps (hkeeps : G.Keeps who h g) : SparesOthers G who h g :=
  ⟨hkeeps.mem, hkeeps.gp, hkeeps.tp, hkeeps.mscratch⟩

/-- `mret` gives the enable bit back. -/
theorem canTake_after {own : Addr → Bool} {ret : Word} {handled : Hart}
    (htrap : Trapped own h ret handled g) (hmie : handled.csr .mie &&& Irq.timer.bit ≠ 0#32)
    (h : CanTake h .timer) : CanTake g .timer := by
  refine ⟨?_, ?_⟩
  · rw [htrap.mstatus, mretStatus_trapStatus_mie]
    exact h.1
  · rw [htrap.mie]
    exact hmie

variable {C : KernelCode G}

/-- The C code of a trap has no part of the save area. -/
theorem own_not_saveArea (C : KernelCode G) (who : Option Nat)
    (hscratch : h.csr .mscratch = G.saveArea) (x : Addr)
    (hx : InRange (h.csr .mscratch) saveAreaSize x) : C.own who x = false := by
  rw [hscratch] at hx
  rw [← Bool.not_eq_true]
  exact fun hown => (C.own_apart who x hown).2 hx

/-- The kernel's own memory belongs to nobody else. -/
theorem own_not_foreign {x : Addr} (hx : G.Foreign who x) : C.own who x = false := by
  rw [← Bool.not_eq_true]
  exact fun hown => (C.own_apart who x hown).1 hx

/-- The timer's interrupt, up to `os_kernel`: each register but `t6` is as it was
in the task, and the timer's interrupt is enabled again. -/
theorem timer_spares {i : Nat} (l : Leftover) (hscratch : h.csr .mscratch = G.saveArea) :
    SparesAll G (some i) h (trap C.platform (C.own (some i)) l timerCause h) ∧
      ∀ r, r ≠ .t6 → (trap C.platform (C.own (some i)) l timerCause h).reg r = h.reg r := by
  -- `r` is what `trap_handler` returns, with the hart it returns on.
  obtain ⟨r, hr⟩ : ∃ r, r = trapHandler C.platform h.pc timerCause (h.csr .mscratch)
      ((h.takeTrap timerCause).run trapEntry) := ⟨_, rfl⟩
  have htrap := trap_spec l timerCause
    (own_not_saveArea C (some i) hscratch) hr
  have hentry := trapEntry_spec (h.takeTrap timerCause)
  -- What `timer_handler` stores is in `l`, so this is still the memory of the entry.
  have hmem : r.2.mem = entryMem (h.takeTrap timerCause) := by
    rw [← hentry.mem, hr]
    generalize (h.takeTrap timerCause).run trapEntry = k
    rfl
  -- `trap_handler` masks the timer's interrupt and enables it again.
  have hmie : r.2.csr .mie &&& Irq.timer.bit ≠ 0#32 := by
    rw [hr]
    generalize (h.takeTrap timerCause).run trapEntry = k
    show ((k.csr .mie &&& ~~~mieMtie) ||| mieMtie) &&& mieMtie ≠ 0#32
    rw [mieMtie, ne_eq, and_bit_eq_zero_iff _ (by decide)]
    simp
  have hscratch' : (h.takeTrap timerCause).csr .mscratch = h.csr .mscratch :=
    h.takeTrap_csr _ (by decide) (by decide) (by decide)
  have hreg : ∀ q, q ≠ .t6 →
      (trap C.platform (C.own (some i)) l timerCause h).reg q = h.reg q := by
    intro q hq
    rw [htrap.reg q, hmem, ← hscratch', load32_entryMem _ hq]
    rfl
  refine ⟨⟨⟨fun x hx => ?_, hreg .gp (by decide), hreg .tp (by decide), htrap.mscratch⟩,
    canTake_after htrap hmie⟩, hreg⟩
  -- What belongs to others is no part of the save area.
  have hout : ¬ InRange ((h.takeTrap timerCause).csr .mscratch) saveAreaSize x := by
    rw [hscratch', hscratch]
    exact foreign_not_saveArea hx
  rw [htrap.mem x (own_not_foreign hx), hmem]
  exact entryMem_of_not_inRange _ hout

/-- A system call. -/
theorem syscall_spares {kind : TrapKind} (hkind : kind.isSyscall = true) (l : Leftover)
    (hscratch : h.csr .mscratch = G.saveArea)
    (hword : h.reg .a7 = 1#32 → h.reg .a0 ≠ 0#32 → ∀ x, InRange (h.reg .a0) 4 x →
      C.own who x = false ∧ ¬ InRange G.saveArea trapFrameSize x ∧ ¬ G.Foreign who x) :
    SparesAll G who h (trap C.platform (C.own who) l kind.cause h) := by
  let S : TrapState :=
    { platform := C.platform
      kind := kind
      hart := h
      own := C.own who
      own_apart := own_not_saveArea C who hscratch
      word_apart := fun _ h7 h0 x hx => ⟨(hword h7 h0 x hx).1, by
        rw [hscratch]
        exact (hword h7 h0 x hx).2.1⟩ }
  obtain ⟨-, hreg, -, hmem⟩ := after_spec S l
  have htrap := trap_spec (P := C.platform) l kind.cause S.own_apart (r := S.handled) rfl
  have hmie : S.handled.2.csr .mie = h.csr .mie :=
    (congrFun (syscall_csr _ _ _ _ hkind) .mie).trans
      (congrFun (trapEntry_spec (h.takeTrap kind.cause)).csr .mie)
  have hsame : ∀ r, r ≠ .t6 → r ≠ .a0 → (S.after l).reg r = h.reg r := by
    intro r h6 h0
    rw [hreg r h6, TrapState.regAfter, if_neg fun h => h0 h.2]
  refine ⟨⟨fun x hx => ?_, hsame .gp (by decide) (by decide), hsame .tp (by decide) (by decide),
    htrap.mscratch⟩, fun harmed => canTake_after htrap ?_ harmed⟩
  · show (S.after l).mem x = h.mem x
    have hout : ¬ InRange (h.csr .mscratch) saveAreaSize x := by
      rw [hscratch]
      exact foreign_not_saveArea hx
    rw [hmem x (own_not_foreign hx) hout, TrapState.memAfter]
    split
    · rename_i hgethid
      -- The word that `sys_gethid` writes is none of the others'.
      exact store32_of_not_inRange _ _ fun hin =>
        (hword hgethid.2.1 hgethid.2.2 x hin).2.2 hx
    · rfl
  · rw [hmie]
    exact harmed.2

/-- A trap that leads back disturbs nobody. -/
theorem trap_spares {cause : Word} (l : Leftover) (hscratch : h.csr .mscratch = G.saveArea)
    (hback : C.LeadsBack who cause h) :
    SparesAll G who h (trap C.platform (C.own who) l cause h) := by
  rcases hback with ⟨-, hresumes | ⟨rfl | rfl, hword⟩⟩
  · obtain ⟨hres, -⟩ := trap_resumes (P := C.platform) l hresumes
      (own_not_saveArea C who hscratch)
    refine ⟨⟨fun x hx => hres.mem x (own_not_foreign hx) ?_, hres.reg .gp (by decide),
      hres.reg .tp (by decide), hres.mscratch⟩, fun harmed => ⟨?_, ?_⟩⟩
    · rw [hscratch]
      exact foreign_not_saveArea hx
    · rw [hres.mstatus]
      exact harmed.1
    · rw [hres.mie]
      exact harmed.2
  · exact syscall_spares (rfl : TrapKind.ecallU.isSyscall = true) l hscratch hword
  · exact syscall_spares (rfl : TrapKind.ecallM.isSyscall = true) l hscratch hword

/-- Task `i` gets to `os_kernel` undisturbed, by a call or by the timer's interrupt,
with the registers that a function gives back and its `ra`. -/
theorem atOsKernel_spares {i : Nat} (way : Way) (hscratch : h.csr .mscratch = G.saveArea) :
    SparesAll G (some i) h (C.atOsKernel i way h) ∧
      ∀ r, r ≠ .t6 → (C.atOsKernel i way h).reg r = h.reg r := by
  cases way with
  | call => exact ⟨⟨⟨fun _ _ => rfl, rfl, rfl, rfl⟩, id⟩, fun _ _ => rfl⟩
  | timer l => exact timer_spares l hscratch

end Traps

/-! ### What a party leaves behind -/

/-- Where to go on, with the registers of the context, `gp`, `tp`, and the
stack. -/
structure LeftBehind where
  pc : Word
  ctx : List Word
  gp : Word
  tp : Word
  stack : Addr → Byte

/-- The stack of `who`. That of the OS is not looked at. -/
def stackOf (G : KernelGlobals) (who : Option Nat) (m : Mem) : Addr → Byte := fun x =>
  match who with
  | some i => if G.Stack i x then m x else 0#8
  | none => 0#8

/-- `who` goes on with these registers in the memory of `h`. The first of them is
`ra`. -/
def keptAs (G : KernelGlobals) (who : Option Nat) (ctx : List Word) (h : Hart) : LeftBehind :=
  ⟨ctx.headD 0#32 &&& ~~~1#32, ctx, h.reg .gp, h.reg .tp, stackOf G who h.mem⟩

/-- What `who` leaves behind at `sys_switch`. -/
def keptBy (G : KernelGlobals) (who : Option Nat) (h : Hart) : LeftBehind :=
  keptAs G who (h.saved switchFrame) h

/-- What `who` finds at the return from `sys_switch`. -/
def foundBy (G : KernelGlobals) (who : Option Nat) (h : Hart) : LeftBehind :=
  { keptBy G who h with pc := h.pc }

/-- What there is for task `i` to go on with. -/
def waiting (G : KernelGlobals) (h : Hart) (i : Nat) : LeftBehind :=
  keptAs G (some i) (frameAt h.mem (G.ctxTask i) switchFrame) h

/-- What there is for `os_main` to go on with. -/
def osWaiting (G : KernelGlobals) (h : Hart) : LeftBehind :=
  keptAs G none (frameAt h.mem G.ctxOs switchFrame) h

/-- The switches of control as an observer sees them. -/
def switches (G : KernelGlobals) : SchedEvent → List (CoEvent LeftBehind)
  | .work | .csrw | .trap _ _ | .next => []
  | .activate i saved entered => [.activate i (keptBy G none saved) (foundBy G (some i) entered)]
  | .leave i _ _ saved entered => [.yield i (keptBy G (some i) saved) (foundBy G none entered)]

section Views

variable {G : KernelGlobals}

/-- At the return `pc` is `ra` without its lowest bit. -/
theorem foundBy_eq {who : Option Nat} {h : Hart} (hpc : h.pc = h.reg .ra &&& ~~~1#32) :
    foundBy G who h = keptBy G who h := by
  unfold foundBy keptBy keptAs
  rw [hpc]
  rfl

/-- The same registers over the same stack. -/
theorem keptAs_congr {who : Option Nat} {ctx ctx' : List Word} {h g : Hart} (hctx : ctx' = ctx)
    (hgp : g.reg .gp = h.reg .gp) (htp : g.reg .tp = h.reg .tp)
    (hstack : ∀ i, who = some i → ∀ x, G.Stack i x → g.mem x = h.mem x) :
    keptAs G who ctx' g = keptAs G who ctx h := by
  have hsame : stackOf G who g.mem = stackOf G who h.mem := by
    funext x
    cases who with
    | none => rfl
    | some i =>
        show (if _ then _ else _) = if _ then _ else _
        split
        · exact hstack i rfl x ‹_›
        · rfl
  rw [keptAs, keptAs, hctx, hgp, htp, hsame]

/-- Of one who waits nothing changes where its context and its stack do not. -/
theorem waiting_congr {i : Nat} {h g : Hart} (hgp : g.reg .gp = h.reg .gp)
    (htp : g.reg .tp = h.reg .tp)
    (hpriv : ∀ x, InRange (G.ctxTask i) contextSize x ∨ G.Stack i x → g.mem x = h.mem x) :
    waiting G g i = waiting G h i :=
  keptAs_congr (frameAt_congr switchFrame_fits_context fun x hx => hpriv x (Or.inl hx)) hgp htp
    fun _ hi x hx => hpriv x (Or.inr (Option.some.inj hi ▸ hx))

/-- The second register of a context is `sp`. -/
theorem saved_sp (h : Hart) : (h.saved switchFrame)[1]? = some (h.reg .sp) := rfl

/-- The second word of a context is `sp`. -/
theorem frameAt_sp (m : Mem) (i : Nat) :
    (frameAt m (G.ctxTask i) switchFrame)[1]? = some (load32 m (G.ctxTaskSp i)) := rfl

/-- The `sp` that a task finds is in its context. -/
theorem sp_of_found {i : Nat} {h k : Hart} (hfound : foundBy G (some i) k = waiting G h i) :
    k.reg .sp = load32 h.mem (G.ctxTaskSp i) := by
  have hctx : k.saved switchFrame = frameAt h.mem (G.ctxTask i) switchFrame :=
    congrArg LeftBehind.ctx hfound
  rw [← Option.some_inj, ← saved_sp, hctx, frameAt_sp]

/-- A task that waits as before has its stack pointer as before. -/
theorem savedSp_congr {i : Nat} {h g : Hart} (hwaiting : waiting G g i = waiting G h i) :
    load32 g.mem (G.ctxTaskSp i) = load32 h.mem (G.ctxTaskSp i) := by
  have hctx : frameAt g.mem (G.ctxTask i) switchFrame = frameAt h.mem (G.ctxTask i) switchFrame :=
    congrArg LeftBehind.ctx hwaiting
  rw [← Option.some_inj, ← frameAt_sp, hctx, frameAt_sp]

/-- The `sp` that a task leaves behind goes to its context. -/
theorem savedSp_of_kept {i : Nat} {h g : Hart} (hkept : waiting G h i = keptBy G (some i) g) :
    load32 h.mem (G.ctxTaskSp i) = g.reg .sp := by
  have hctx : frameAt h.mem (G.ctxTask i) switchFrame = g.saved switchFrame :=
    congrArg LeftBehind.ctx hkept
  rw [← Option.some_inj, ← frameAt_sp, hctx, saved_sp]

/-- What is private to a task is foreign to the others. -/
theorem private_foreign (who : Option Nat) {i : Nat} (hi : i < maxTask) (hwho : who ≠ some i)
    {x : Addr} (hx : InRange (G.ctxTask i) contextSize x ∨ G.Stack i x) : G.Foreign who x := by
  cases hx with
  | inl hctx => exact Or.inl ((kernelTables G).isGlobal_context hi hctx)
  | inr hstack => exact Or.inr ⟨i, hi, hwho, hstack⟩

end Views

/-! ### The two switches -/

section Switches

variable {G : KernelGlobals} {C : KernelCode G} {i : Nat} {h g : Hart}

/-- From `h` by `task_go(i)` to the hart `k`. -/
structure Turned (G : KernelGlobals) (i : Nat) (h g k : Hart) : Prop where
  found : foundBy G (some i) k = waiting G h i
  os : osWaiting G k = keptBy G none g
  ctxNow : load32 k.mem G.ctxNow = G.ctxTask i
  taskTop : load32 k.mem G.taskTop = load32 h.mem G.taskTop
  others : ∀ j < maxTask, waiting G k j = waiting G h j
  csr : k.csr = h.csr

/-- The lemma about `task_go`. -/
theorem turned_of_taskGo (hi : i < maxTask) (hgo : G.CallsTaskGo i h g) :
    Turned G i h g (sysSwitch g) := by
  obtain ⟨hold, hnew, hkeeps, hcsr⟩ := hgo
  have hapart : Apart G.ctxOs contextSize (G.ctxTask i) contextSize :=
    (kernelTables G).scheduler_apart_context hi
  have hswitch := switch_contexts g (by rw [hold, hnew]; exact hapart)
  rw [hold, hnew] at hswitch
  have hgp : (sysSwitch g).reg .gp = h.reg .gp := (hswitch.other .gp (by decide)).trans hkeeps.gp
  have htp : (sysSwitch g).reg .tp = h.reg .tp := (hswitch.other .tp (by decide)).trans hkeeps.tp
  -- `ctx_now = &ctx_tasks[i]` and the save in `ctx_os` are nowhere else.
  have hpriv : ∀ j < maxTask, ∀ x, InRange (G.ctxTask j) contextSize x ∨ G.Stack j x →
      g.mem x = h.mem x := by
    intro j hj x hx
    rw [hkeeps.mem x (private_foreign none hj nofun hx)]
    exact store32_of_not_inRange _ _ ((kernelTables G).private_outside hj hx).1
  have hkept : ∀ j < maxTask, ∀ x, InRange (G.ctxTask j) contextSize x ∨ G.Stack j x →
      (sysSwitch g).mem x = h.mem x := by
    intro j hj x hx
    rw [hswitch.frame x ((kernelTables G).private_outside hj hx).2.1]
    exact hpriv j hj x hx
  constructor
  · rw [foundBy_eq hswitch.pc]
    refine keptAs_congr ?_ hgp htp fun j hj x hx => ?_
    · rw [hswitch.entered]
      exact frameAt_congr switchFrame_fits_context fun x hx => hpriv i hi x (Or.inl hx)
    · obtain rfl := Option.some.inj hj
      exact hkept i hi x (Or.inr hx)
  · exact keptAs_congr hswitch.left (hswitch.other .gp (by decide)) (hswitch.other .tp (by decide))
      nofun
  · have hnow : load32 (sysSwitch g).mem G.ctxNow = load32 g.mem G.ctxNow :=
      load32_congr fun x hx =>
        hswitch.frame x ((kernelTables G).scheduler_apart_current.symm.not_inRange hx)
    rw [hnow, load32_congr fun x hx => hkeeps.mem x (Or.inl (Or.inr (Or.inr (Or.inl hx))))]
    exact load32_store32_same _ _ _
  · have htop : load32 (sysSwitch g).mem G.taskTop = load32 g.mem G.taskTop :=
      load32_congr fun x hx => hswitch.frame x ((kernelTables G).top_outside hx).2.1
    rw [htop, load32_congr fun x hx => hkeeps.mem x (Or.inl (Or.inr (Or.inr (Or.inr hx))))]
    exact load32_store32_of_disjoint _ _ fun x hx => ((kernelTables G).top_outside hx).1
  · exact fun j hj => waiting_congr hgp htp (hkept j hj)
  · rw [hswitch.csr]
    exact hcsr

/-- From task `i` at `h`, by `task_os` at `g`, to the hart `k`. -/
structure Parted (G : KernelGlobals) (i : Nat) (h g k : Hart) : Prop where
  found : foundBy G none k = osWaiting G h
  left : waiting G k i = keptBy G (some i) g
  taskTop : load32 k.mem G.taskTop = load32 h.mem G.taskTop
  others : ∀ j < maxTask, i ≠ j → waiting G k j = waiting G h j
  mscratch : k.csr .mscratch = h.csr .mscratch
  armed : CanTake h .timer → CanTake k .timer

/-- The lemma about the two ways out of a task. -/
theorem parted_of_leave (hi : i < maxTask) (hscratch : h.csr .mscratch = G.saveArea)
    (hnow : load32 h.mem G.ctxNow = G.ctxTask i) {way : Way} (hleave : C.CanLeave i way h) :
    Parted G i h (C.atSwitch i way h) (sysSwitch (C.atSwitch i way h)) := by
  obtain ⟨hentry, hsame⟩ := atOsKernel_spares (C := C) (i := i) way hscratch
  have hroom : G.Room i C.frames ((C.atOsKernel i way h).reg .sp) := by
    rw [hsame .sp (by decide)]
    exact hleave.1 i rfl
  rw [KernelCode.atSwitch]
  generalize C.atOsKernel i way h = e at hentry hroom
  obtain ⟨hold', hnew, hmem', hgp', htp', hcsr⟩ := C.calls i hi e hroom
  -- `task_os` gets the context to save in from `ctx_now`.
  have hold : (C.call e).reg .a0 = G.ctxTask i := by
    rw [hold', ← hnow]
    exact load32_congr fun x hx => hentry.mem x (Or.inl (Or.inr (Or.inr (Or.inl hx))))
  have hmem : ∀ x, G.Foreign (some i) x → ¬ InRange G.ctxNow 4 x → ¬ G.Stack i x →
      (C.call e).mem x = h.mem x := by
    intro x hx hxnow hstack
    rw [hmem' x fun hin => hstack (hroom x hin), ← hentry.mem x hx]
    exact store32_of_not_inRange _ _ hxnow
  have hgp : (C.call e).reg .gp = h.reg .gp := hgp'.trans hentry.gp
  have htp : (C.call e).reg .tp = h.reg .tp := htp'.trans hentry.tp
  generalize C.call e = g at *
  have hapart : Apart G.ctxOs contextSize (G.ctxTask i) contextSize :=
    (kernelTables G).scheduler_apart_context hi
  have hswitch := switch_contexts g (by rw [hold, hnew]; exact hapart.symm)
  rw [hold, hnew] at hswitch
  have hkgp : (sysSwitch g).reg .gp = g.reg .gp := hswitch.other .gp (by decide)
  have hktp : (sysSwitch g).reg .tp = g.reg .tp := hswitch.other .tp (by decide)
  have hglobal : ∀ x, G.IsGlobal x → ¬ InRange G.ctxNow 4 x → g.mem x = h.mem x :=
    fun x hx hxnow => hmem x (Or.inl hx) hxnow fun hstack =>
      (kernelTables G).stack_not_global hi hstack hx
  constructor
  · rw [foundBy_eq hswitch.pc]
    refine keptAs_congr ?_ (hkgp.trans hgp) (hktp.trans htp) nofun
    rw [hswitch.entered]
    exact frameAt_congr switchFrame_fits_context fun x hx =>
      hglobal x (Or.inl hx) ((kernelTables G).scheduler_apart_current.not_inRange hx)
  · refine keptAs_congr hswitch.left hkgp hktp fun j hj x hx => ?_
    obtain rfl := Option.some.inj hj
    exact hswitch.frame x fun hctx =>
      (kernelTables G).stack_not_global hi hx ((kernelTables G).isGlobal_context hi hctx)
  · have htop : load32 (sysSwitch g).mem G.taskTop = load32 g.mem G.taskTop :=
      load32_congr fun x hx => hswitch.frame x (((kernelTables G).top_outside hx).2.2 i hi)
    rw [htop]
    exact load32_congr fun x hx =>
      hglobal x (Or.inr (Or.inr (Or.inr hx))) ((kernelTables G).top_outside hx).1
  · intro j hj hij
    refine waiting_congr (hkgp.trans hgp) (hktp.trans htp) fun x hx => ?_
    obtain ⟨hxnow, -, hctx⟩ := (kernelTables G).private_outside hj hx
    rw [hswitch.frame x (hctx i hi hij)]
    have hforeign := private_foreign (some i) hj (fun h => hij (Option.some.inj h)) hx
    exact hmem x hforeign hxnow ((kernelTables G).private_not_stack hi hj hij hx)
  · rw [hswitch.csr, hcsr]
    exact hentry.mscratch
  · exact fun harmed => canTake_of_csr (hswitch.csr.trans hcsr) (hentry.armed harmed)

end Switches

/-! ### What `user_init` leaves -/

/-- The tasks are in the table. -/
structure TasksCreated (G : KernelGlobals) (tasks : List Addr) (m : Mem) : Prop where
  taskTop : load32 m G.taskTop = BitVec.ofNat 32 tasks.length
  ra : ∀ i (hi : i < tasks.length), load32 m (G.ctxTask i) = tasks[i]
  sp : ∀ i < tasks.length, G.Stack i (load32 m (G.ctxTaskSp i))

/-- One call of `task_create` after the other. Induction on the calls made. -/
theorem userInit_created {G : KernelGlobals} {m : Mem} (htop : load32 m G.taskTop = 0#32)
    (tasks : List Addr) (hle : tasks.length ≤ maxTask) :
    TasksCreated G tasks (G.userInit m tasks) := by
  induction tasks using List.reverseRecOn with
  | nil => exact ⟨htop, nofun, nofun⟩
  | append_singleton tasks task ih =>
      rw [List.length_append, List.length_singleton] at hle
      have hk : tasks.length < maxTask := hle
      obtain ⟨htop', hra, hsp⟩ := ih (Nat.le_of_lt hk)
      have hdef : G.userInit m (tasks ++ [task])
          = (G.taskCreate (G.userInit m tasks) task).2 := by
        simp only [KernelGlobals.userInit, List.foldl_append, List.foldl_cons, List.foldl_nil]
      obtain ⟨hreg, htop''⟩ := taskCreate_registers hk htop' task
      -- The call writes the context behind the last one.
      have hkept : ∀ i < tasks.length, ∀ x, InRange (G.ctxTask i) contextSize x →
          (G.taskCreate (G.userInit m tasks) task).2 x = G.userInit m tasks x := by
        intro i hi x hx
        have hmax : i < maxTask := Nat.lt_trans hi hk
        exact hreg.frame x (context_not_taskTop G.toTaskTables hmax hx)
          (((contextsOf G.toTaskTables).entry_apart_entry hmax hk (Nat.ne_of_lt hi)).not_inRange hx)
      rw [hdef]
      refine ⟨?_, fun i hi => ?_, fun i hi => ?_⟩
      · rw [List.length_append, List.length_singleton]
        exact htop''
      · rw [List.length_append, List.length_singleton] at hi
        by_cases hlast : i = tasks.length
        · subst hlast
          rw [List.getElem_append_right (Nat.le_refl _)]
          simpa using hreg.ra
        · have hlt : i < tasks.length := by omega
          rw [List.getElem_append_left hlt, ← hra i hlt]
          exact load32_congr fun x hx => hkept i hlt x (hx.mono (by decide))
      · rw [List.length_append, List.length_singleton] at hi
        by_cases hlast : i = tasks.length
        · subst hlast
          exact hreg.sp
        · have hlt : i < tasks.length := by omega
          have hsame : load32 (G.taskCreate (G.userInit m tasks) task).2 (G.ctxTaskSp i)
              = load32 (G.userInit m tasks) (G.ctxTaskSp i) :=
            load32_congr fun x hx => hkept i hlt x (inRange_of_add (by decide) (by decide) hx)
          rw [hsame]
          exact hsp i hlt

/-! ### The simulation -/

section Simulation

variable {G : KernelGlobals} {C : KernelCode G}

/-- The task that `os_main` activates next, of `n`. -/
def nextTurn (n : Nat) (s : Machine) : Nat :=
  match s.control with
  | .osMain => s.currentTask
  | .back | .task _ => (s.currentTask + 1) % n

/-- The machine has `n` tasks, and those who do not run are the coroutines. -/
structure Scheduled (G : KernelGlobals) (n : Nat) (s : Machine) (c : Coroutines LeftBehind) :
    Prop where
  le : n ≤ maxTask
  taskTop : load32 s.hart.mem G.taskTop = BitVec.ofNat 32 n
  running : s.control.who = c.running
  next : nextTurn n s = c.count % n
  current : s.currentTask < n
  mscratch : s.hart.csr .mscratch = G.saveArea
  task : ∀ i, s.control = .task i → i = s.currentTask ∧
    load32 s.hart.mem G.ctxNow = G.ctxTask i ∧ osWaiting G s.hart = c.sched
  waits : ∀ j < n, s.control.who ≠ some j → waiting G s.hart j = c.cont j

variable {n : Nat} {s t : Machine} {c : Coroutines LeftBehind} {k : Nat → LeftBehind}

/-- The current task has a context. -/
theorem Scheduled.lt_maxTask (h : Scheduled G n s c) : s.currentTask < maxTask :=
  Nat.lt_of_lt_of_le h.current h.le

/-- What disturbs nobody changes nothing that waits. -/
theorem Scheduled.spared (h : Scheduled G n s c) {g : Hart}
    (hsame : SparesOthers G s.control.who s.hart g) : Scheduled G n { s with hart := g } c := by
  have hglobal : ∀ x, G.IsGlobal x → g.mem x = s.hart.mem x := fun x hx => hsame.mem x (Or.inl hx)
  refine ⟨h.le, ?_, h.running, h.next, h.current, hsame.mscratch.trans h.mscratch,
    fun i hi => ?_, fun j hj hwho => ?_⟩
  · rw [← h.taskTop]
    exact load32_congr fun x hx => hglobal x (Or.inr (Or.inr (Or.inr hx)))
  · obtain ⟨hcurrent, hnow, hos⟩ := h.task i hi
    refine ⟨hcurrent, ?_, ?_⟩
    · rw [← hnow]
      exact load32_congr fun x hx => hglobal x (Or.inr (Or.inr (Or.inl hx)))
    · rw [← hos]
      refine keptAs_congr ?_ hsame.gp hsame.tp nofun
      exact frameAt_congr switchFrame_fits_context fun x hx => hglobal x (Or.inl hx)
  · rw [← h.waits j hj hwho]
    exact waiting_congr hsame.gp hsame.tp fun x hx =>
      hsame.mem x (private_foreign _ (Nat.lt_of_lt_of_le hj h.le) hwho hx)

/-- The next task has its turn, and finds what it has left behind. -/
theorem Scheduled.activate (h : Scheduled G n s c) {i : Nat} {saved entered : Hart}
    (hstep : schedStep C s (.activate i saved entered) t) :
    ∃ d, (Coroutines.system n k).step c
        (.activate i (keptBy G none saved) (foundBy G (some i) entered)) d ∧
      Scheduled G n t d := by
  obtain ⟨hcontrol, rfl, hgo, rfl, rfl⟩ := hstep
  have hturn := turned_of_taskGo h.lt_maxTask hgo
  have hrunning : c.running = none := by rw [← h.running, hcontrol]; rfl
  have hdue : s.currentTask = c.count % n := by
    have := h.next
    rwa [nextTurn, hcontrol] at this
  -- The task finds what the coroutine was left with.
  have hfound : foundBy G (some s.currentTask) (sysSwitch saved) = c.cont s.currentTask :=
    hturn.found.trans (h.waits _ h.current (by rw [hcontrol]; nofun))
  refine ⟨_, ⟨hrunning, hdue, hfound, rfl⟩, ?_⟩
  refine ⟨h.le, hturn.taskTop.trans h.taskTop, rfl, ?_, h.current, ?_, fun i hi => ?_,
    fun j hj hwho => ?_⟩
  · show (s.currentTask + 1) % n = (c.count + 1) % n
    rw [hdue, Nat.mod_add_mod]
  · exact (congrFun hturn.csr .mscratch).trans h.mscratch
  · obtain rfl : s.currentTask = i := by simpa using hi
    exact ⟨rfl, hturn.ctxNow, hturn.os⟩
  · rw [hturn.others j (Nat.lt_of_lt_of_le hj h.le)]
    exact h.waits j hj (by rw [hcontrol]; nofun)

/-- A task leaves, and `os_main` finds what it has left behind. -/
theorem Scheduled.leave (h : Scheduled G n s c) {i : Nat} {way : Way} {task saved entered : Hart}
    (hstep : schedStep C s (.leave i way task saved entered) t) :
    ∃ d, (Coroutines.system n k).step c
        (.yield i (keptBy G (some i) saved) (foundBy G none entered)) d ∧
      Scheduled G n t d := by
  obtain ⟨hcontrol, rfl, hleave, rfl, rfl, rfl⟩ := hstep
  obtain ⟨rfl, hnow, hsched⟩ := h.task i hcontrol
  -- The yield splits the machine: what is left behind, and what `os_main` finds.
  have hpart := parted_of_leave (C := C) h.lt_maxTask h.mscratch hnow hleave
  have hrunning : c.running = some s.currentTask := by rw [← h.running, hcontrol]; rfl
  refine ⟨_, ⟨hrunning, hpart.found.trans hsched, rfl⟩, ?_⟩
  refine ⟨h.le, hpart.taskTop.trans h.taskTop, rfl, ?_, h.current,
    hpart.mscratch.trans h.mscratch, nofun, fun j hj _ => ?_⟩
  · have := h.next
    rwa [nextTurn, hcontrol] at this
  · by_cases hij : s.currentTask = j
    · -- The one that leaves waits with what it has left, and the others as before.
      subst hij
      show _ = Function.update c.cont s.currentTask _ s.currentTask
      rw [Function.update_self]
      exact hpart.left
    · show _ = Function.update c.cont s.currentTask _ j
      rw [Function.update_of_ne (Ne.symm hij), hpart.others j (Nat.lt_of_lt_of_le hj h.le) hij]
      exact h.waits j hj (by rw [hcontrol]; simpa [Control.who] using hij)

/-- `taskTop` as a number. -/
theorem Scheduled.toNat_taskTop (h : Scheduled G n s c) :
    (load32 s.hart.mem G.taskTop).toNat = n := by
  have hle := h.le
  unfold maxTask at hle
  rw [h.taskTop, BitVec.toNat_ofNat, Nat.mod_eq_of_lt (by omega)]

/-- `os_main` computes the next task. -/
theorem Scheduled.next_step (h : Scheduled G n s c) (hstep : schedStep C s .next t) :
    Scheduled G n t c := by
  obtain ⟨hcontrol, rfl⟩ := hstep
  have hnext := h.next
  rw [nextTurn, hcontrol] at hnext
  refine ⟨h.le, h.taskTop, ?_, ?_, ?_, h.mscratch, nofun, fun j hj _ => ?_⟩
  · rw [← h.running, hcontrol]
    rfl
  · show (s.currentTask + 1) % (load32 s.hart.mem G.taskTop).toNat = c.count % n
    rw [h.toNat_taskTop]
    exact hnext
  · show (s.currentTask + 1) % (load32 s.hart.mem G.taskTop).toNat < n
    rw [h.toNat_taskTop]
    exact Nat.mod_lt _ (Nat.zero_lt_of_lt h.current)
  · exact h.waits j hj (by rw [hcontrol]; nofun)

end Simulation

/-! ### The runs of the machine -/

section Runs

variable {G : KernelGlobals} {C : KernelCode G} {U : TaskInit G} {s t : Machine}
  {es : List SchedEvent}

/-- The contexts that `user_init` has left are the starts of the coroutines. -/
theorem scheduled_init (hinit : (schedMachine C U).init s) (sched : LeftBehind) :
    Scheduled G U.tasks.length s ⟨waiting G s.hart, sched, none, 0⟩ := by
  obtain ⟨hmem, hscratch, -, hcontrol, hcurrent⟩ := hinit
  have hpos : 0 < U.tasks.length := List.length_pos_iff.mpr U.tasks_ne_nil
  refine ⟨U.length_le, ?_, ?_, ?_, ?_, hscratch, ?_, fun _ _ _ => rfl⟩
  · rw [hmem]
    exact (userInit_created U.taskTop_zero U.tasks U.length_le).taskTop
  · rw [hcontrol]
    rfl
  · rw [nextTurn, hcontrol]
    exact hcurrent.trans (Nat.zero_mod _).symm
  · rw [hcurrent]
    exact hpos
  · rw [hcontrol]
    nofun

/-- A run of the machine is one of the coroutines. -/
theorem scheduled_run (hinit : (schedMachine C U).init s) (hrun : (schedMachine C U).Run s es t)
    (sched : LeftBehind) :
    ∃ d, (Coroutines.system U.tasks.length (waiting G s.hart)).Run
        ⟨waiting G s.hart, sched, none, 0⟩ (es.flatMap (switches G)) d ∧
      Scheduled G U.tasks.length t d := by
  induction hrun with
  | nil => exact ⟨_, System.Run.nil _, scheduled_init hinit sched⟩
  | @snoc u v es e _ hstep ih =>
      obtain ⟨c, hco, hc⟩ := ih
      rw [List.flatMap_append, List.flatMap_singleton]
      cases e with
      -- Only a switch of control is an event of the coroutines.
      | work =>
          obtain ⟨hkeeps, -, hcontrol, hcurrent⟩ := hstep
          have hsame := hc.spared (spares_of_keeps hkeeps)
          rw [← hcontrol, ← hcurrent] at hsame
          exact ⟨c, by simpa [switches] using hco, hsame⟩
      | csrw =>
          obtain ⟨hkeeps, hcontrol, hcurrent⟩ := hstep
          have hsame := hc.spared (spares_of_keeps hkeeps)
          rw [← hcontrol, ← hcurrent] at hsame
          exact ⟨c, by simpa [switches] using hco, hsame⟩
      | trap cause l =>
          obtain ⟨hback, rfl⟩ := hstep
          exact ⟨c, by simpa [switches] using hco,
            hc.spared (trap_spares l hc.mscratch hback).toSparesOthers⟩
      | activate i saved entered =>
          obtain ⟨d, hstep', hd⟩ := hc.activate (C := C) hstep
          exact ⟨d, hco.snoc hstep', hd⟩
      | leave i way task saved entered =>
          obtain ⟨d, hstep', hd⟩ := hc.leave (C := C) hstep
          exact ⟨d, hco.snoc hstep', hd⟩
      | next => exact ⟨c, by simpa [switches] using hco, hc.next_step (C := C) hstep⟩

/-- A reachable state is one of coroutines. -/
theorem scheduled_reachable (h : (schedMachine C U).Reachable s) :
    ∃ c, Scheduled G U.tasks.length s c := by
  obtain ⟨s₀, es, hinit, hrun⟩ := h
  obtain ⟨d, -, hd⟩ := scheduled_run hinit hrun (osWaiting G s₀.hart)
  exact ⟨d, hd⟩

/-- A step that writes no control register leaves the timer's interrupt enabled. -/
theorem armed_step {n : Nat} {c : Coroutines LeftBehind} (hc : Scheduled G n s c)
    {e : SchedEvent} (hstep : schedStep C s e t) (he : e ≠ .csrw)
    (harmed : CanTake s.hart .timer) : CanTake t.hart .timer := by
  cases e with
  | work => exact canTake_of_csr hstep.2.1 harmed
  | csrw => exact absurd rfl he
  | trap cause l =>
      obtain ⟨hback, rfl⟩ := hstep
      exact (trap_spares l hc.mscratch hback).armed harmed
  | activate i saved entered =>
      obtain ⟨-, rfl, hgo, rfl, rfl⟩ := hstep
      exact canTake_of_csr (turned_of_taskGo hc.lt_maxTask hgo).csr harmed
  | leave i way task saved entered =>
      obtain ⟨hcontrol, rfl, hleave, rfl, rfl, rfl⟩ := hstep
      obtain ⟨rfl, hnow, -⟩ := hc.task i hcontrol
      exact (parted_of_leave hc.lt_maxTask hc.mscratch hnow hleave).armed harmed
  | next =>
      obtain ⟨-, rfl⟩ := hstep
      exact harmed

/-- The run lemma of `armed_step`. -/
theorem armed_run (hs : (schedMachine C U).Reachable s) (hrun : (schedMachine C U).Run s es t)
    (hno : .csrw ∉ es) (harmed : CanTake s.hart .timer) : CanTake t.hart .timer := by
  induction hrun with
  | nil => exact harmed
  | @snoc u v es e hpre hstep ih =>
      rw [List.mem_append, not_or, List.mem_singleton] at hno
      obtain ⟨c, hc⟩ := scheduled_reachable (hs.run hpre)
      exact armed_step hc hstep (Ne.symm hno.2) (ih hno.1)

/-- Task `i` does not leave. -/
def Stays (i : Nat) (es : List SchedEvent) : Prop :=
  ∀ way task saved entered, SchedEvent.leave i way task saved entered ∉ es

/-- Who does not leave does not yield. -/
theorem yields_of_stays {i : Nat} (h : Stays i es) :
    (es.flatMap (switches G)).filterMap (CoEvent.yielded i) = [] := by
  rw [List.filterMap_eq_nil_iff]
  intro e he
  obtain ⟨ev, hev, hin⟩ := List.mem_flatMap.mp he
  cases ev with
  | work | csrw | trap _ _ | next => cases hin
  | activate j saved entered =>
      obtain rfl := List.mem_singleton.mp hin
      rfl
  | leave j way task saved entered =>
      obtain rfl := List.mem_singleton.mp hin
      have hne : j ≠ i := fun hji => h way task saved entered (hji ▸ hev)
      exact if_neg hne

/-- `sys_switch` returns to `task_os` as from a call. -/
theorem returned_of_found {i : Nat} {e k : Hart}
    (h : foundBy G (some i) k = keptBy G (some i) (C.call e)) :
    Returned (G.taskGlobals i) (C.call e) k := by
  have hctx : k.saved switchFrame = (C.call e).saved switchFrame :=
    congrArg LeftBehind.ctx h
  constructor
  · exact congrArg LeftBehind.pc h
  · intro r hr
    by_cases hgp : r = .gp
    · subst hgp
      exact congrArg LeftBehind.gp h
    · by_cases htp : r = .tp
      · subst htp
        exact congrArg LeftBehind.tp h
      · exact reg_eq_of_saved_eq hctx (mem_switchFrame hr hgp htp)
  · intro x hx
    have hin : G.Stack i x := of_decide_eq_true hx
    have hstack : stackOf G (some i) k.mem x = stackOf G (some i) (C.call e).mem x :=
      congrFun (congrArg LeftBehind.stack h) x
    simpa only [stackOf, if_pos hin] using hstack

/-- A task that has left at `task` goes on at the return of `os_kernel`: at the `ra`
that it left with, with the registers that a function gives back. -/
structure GoesOn (C : KernelCode G) (i : Nat) (way : Way) (task entered : Hart) : Prop where
  pc : (C.ret (C.atOsKernel i way task) entered).pc = task.reg .ra &&& ~~~1#32
  reg : ∀ r, r.callerSaved = false →
    (C.ret (C.atOsKernel i way task) entered).reg r = task.reg r

/-- A task that finds what it left goes on with it. -/
theorem goesOn_of_found {i : Nat} {way : Way} {task entered : Hart}
    (hi : i < maxTask) (hscratch : task.csr .mscratch = G.saveArea)
    (hroom : C.HasRoom (some i) task)
    (h : foundBy G (some i) entered = keptBy G (some i) (C.atSwitch i way task)) :
    GoesOn C i way task entered := by
  obtain ⟨-, hentry⟩ := atOsKernel_spares (C := C) (i := i) way hscratch
  have hreturned := returned_of_found h
  have hsp : G.Room i C.frames ((C.atOsKernel i way task).reg .sp) := by
    rw [hentry .sp (by decide)]
    exact hroom i rfl
  constructor
  · rw [← hentry .ra (by decide)]
    exact C.ret_pc i hi _ _ hsp hreturned
  · intro r hr
    have hne : r ≠ .t6 := fun h => by rw [h] at hr; exact absurd hr (by decide)
    rw [← hentry r hne]
    exact C.ret_reg i hi _ _ hsp hreturned r hr

/-- The tasks of `10-SystemCall` have their turns in order, on every run in which
the timer's interrupt hits tasks and other traps hit tasks and `os_main`, while the
stacks have room for the frames of the kernel. Of a task that leaves, by a call of
`os_kernel` or by the interrupt, the registers of its context and its stack are
there at its next turn. Its first turn begins in its function on its own stack,
each other one at the return of `os_kernel`: an interrupted task, too, goes on at
its `ra`, with the registers that a function gives back. Where the timer's
interrupt is enabled it stays so until code writes a control register. -/
theorem preemptive_roundRobin {G : KernelGlobals} (C : KernelCode G) (U : TaskInit G)
    {s t : Machine} {es : List SchedEvent} (hinit : (schedMachine C U).init s)
    (hrun : (schedMachine C U).Run s es t) :
    RoundRobin U.tasks.length (waiting G s.hart) (es.flatMap (switches G)) ∧
    (∀ pre i saved entered post, es = pre ++ .activate i saved entered :: post → Stays i pre →
      ∃ hi : i < U.tasks.length, entered.pc = U.tasks[i] ∧ G.Stack i (entered.reg .sp)) ∧
    (∀ pre i way task saved entered mid saved' entered' post,
      es = pre ++ .leave i way task saved entered :: (mid ++ .activate i saved' entered' :: post) →
      Stays i mid → GoesOn C i way task entered') ∧
    (∀ pre post u, es = pre ++ post → (schedMachine C U).Run s pre u →
      (schedMachine C U).Run u post t → CanTake u.hart .timer → SchedEvent.csrw ∉ post →
      CanTake t.hart .timer) := by
  obtain ⟨d, hco, -⟩ := scheduled_run hinit hrun (osWaiting G s.hart)
  have hfirst : (Coroutines.system U.tasks.length (waiting G s.hart)).init
      ⟨waiting G s.hart, osWaiting G s.hart, none, 0⟩ := ⟨rfl, rfl, rfl⟩
  have hrobin := Coroutines.roundRobin hfirst hco
  refine ⟨hrobin, ?_, ?_, fun pre post u _ hpre hpost harmed hno =>
    armed_run ⟨s, pre, hinit, hpre⟩ hpost hno harmed⟩
  · rintro pre i saved entered post rfl hstays
    obtain ⟨u, v, hpre, hstep, -⟩ := hrun.split_step
    obtain ⟨c, -, hc⟩ := scheduled_run hinit hpre (osWaiting G s.hart)
    obtain ⟨-, rfl, -, -, -⟩ := hstep
    have hfound := (hrobin.resumes (pre.flatMap (switches G)) _ _ _ _
      (by rw [List.flatMap_append, List.flatMap_cons]; rfl)).2
    rw [lastYield, yields_of_stays hstays] at hfound
    -- The task finds what `user_init` has put there.
    have hcreated := userInit_created U.taskTop_zero U.tasks U.length_le
    rw [← hinit.1] at hcreated
    refine ⟨hc.current, ?_, ?_⟩
    · have hpc : entered.pc = load32 s.hart.mem (G.ctxTask u.currentTask + BitVec.ofNat 32 0)
          &&& ~~~1#32 := congrArg LeftBehind.pc hfound
      rw [hpc, add_ofNat_zero, hcreated.ra _ hc.current]
      exact U.even _ (List.getElem_mem hc.current)
    · rw [sp_of_found hfound]
      exact hcreated.sp _ hc.current
  · rintro pre i way task saved entered mid saved' entered' post rfl hstays
    obtain ⟨u, v, hpre, hstep, -⟩ := hrun.split_step
    obtain ⟨c, -, hc⟩ := scheduled_run hinit hpre (osWaiting G s.hart)
    obtain ⟨hcontrol, rfl, ⟨hroom, -⟩, rfl, -, -⟩ := hstep
    obtain ⟨rfl, -, -⟩ := hc.task i hcontrol
    apply goesOn_of_found hc.lt_maxTask hc.mscratch hroom
    have hfound := (hrobin.resumes ((pre ++ .leave u.currentTask way u.hart
      (C.atSwitch u.currentTask way u.hart) entered :: mid).flatMap (switches G)) _ _ _ _
      (by rw [← List.cons_append, ← List.append_assoc, List.flatMap_append, List.flatMap_cons]
          rfl)).2
    rw [hfound, lastYield, List.flatMap_append, List.flatMap_cons, List.filterMap_append,
      List.filterMap_append, yields_of_stays hstays]
    simp [switches, CoEvent.yielded]

end Runs

/-! ### Where the timer can take the hart -/

section Interruptible

variable {G : KernelGlobals} {C : KernelCode G} {n : Nat} {P : Nat → Prop} {s t : Machine}
  {c : Coroutines LeftBehind}

/-- The stack pointer that task `j` has, or goes on with. -/
def spOf (G : KernelGlobals) (s : Machine) (j : Nat) : Word :=
  if s.control.who = some j then s.hart.reg .sp else load32 s.hart.mem (G.ctxTaskSp j)

/-- The timer's interrupt is enabled, and the stacks of the tasks of `P` have room
for one more entry of the kernel. -/
structure Interruptible (C : KernelCode G) (n : Nat) (P : Nat → Prop) (s : Machine) : Prop where
  armed : CanTake s.hart .timer
  room : ∀ j < n, P j → G.Room j C.frames (spOf G s j)

/-- Fewer tasks need less room. -/
theorem Interruptible.mono (h : Interruptible C n P s) {Q : Nat → Prop}
    (hsub : ∀ j < n, Q j → P j) : Interruptible C n Q s :=
  ⟨h.armed, fun j hj hq => h.room j hj (hsub j hj hq)⟩

/-- A task starts its turn with the `sp` that it goes on with. -/
theorem Interruptible.activate (h : Interruptible C n P s) (hc : Scheduled G n s c) {i : Nat}
    {saved entered : Hart} (hstep : schedStep C s (.activate i saved entered) t) :
    Interruptible C n P t := by
  refine ⟨armed_step hc hstep (by simp) h.armed, fun j hj hp => ?_⟩
  have hroom := h.room j hj hp
  obtain ⟨hcontrol, rfl, hgo, rfl, rfl⟩ := hstep
  have hturn := turned_of_taskGo hc.lt_maxTask hgo
  rw [spOf, if_neg (by rw [hcontrol]; nofun)] at hroom
  rw [spOf]
  split
  · rename_i hwho
    obtain rfl : s.currentTask = j := Option.some.inj hwho
    rwa [sp_of_found hturn.found]
  · rwa [savedSp_congr (hturn.others j (Nat.lt_of_lt_of_le hj hc.le))]

/-- A task that leaves takes nothing from the others. -/
theorem Interruptible.leave (h : Interruptible C n P s) (hc : Scheduled G n s c) {i : Nat}
    {way : Way} {task saved entered : Hart}
    (hstep : schedStep C s (.leave i way task saved entered) t) :
    Interruptible C n (fun j => P j ∧ j ≠ i) t := by
  refine ⟨armed_step hc hstep (by simp) h.armed, fun j hj hp => ?_⟩
  have hroom := h.room j hj hp.1
  obtain ⟨hcontrol, rfl, hleave, rfl, rfl, rfl⟩ := hstep
  obtain ⟨rfl, hnow, -⟩ := hc.task i hcontrol
  have hpart := parted_of_leave hc.lt_maxTask hc.mscratch hnow hleave
  rw [spOf, if_neg (by rw [hcontrol]; simpa [Control.who] using hp.2.symm)] at hroom
  rw [spOf, if_neg (by simp [Control.who])]
  rwa [savedSp_congr (hpart.others j (Nat.lt_of_lt_of_le hj hc.le) hp.2.symm)]

/-- `os_main` takes no room of the tasks. -/
theorem Interruptible.next (h : Interruptible C n P s) (hc : Scheduled G n s c)
    (hstep : schedStep C s .next t) : Interruptible C n P t := by
  refine ⟨armed_step hc hstep (by simp) h.armed, fun j hj hp => ?_⟩
  have hroom := h.room j hj hp
  obtain ⟨hcontrol, rfl⟩ := hstep
  rw [spOf, if_neg (by rw [hcontrol]; nofun)] at hroom
  rwa [spOf, if_neg (by simp [Control.who])]

end Interruptible

/-! ### The next turn of a task -/

section Progress

variable {G : KernelGlobals} (C : KernelCode G) {n : Nat} {s : Machine} {c : Coroutines LeftBehind}

/-- `os_main` can always call `task_go`. -/
theorem can_activate (hcontrol : s.control = .osMain) :
    ∃ saved entered t, schedStep C s (.activate s.currentTask saved entered) t ∧
      t.control = .task s.currentTask ∧ t.currentTask = s.currentTask := by
  obtain ⟨h, hh⟩ : ∃ h : Hart, h = { s.hart with
    mem := store32 s.hart.mem G.ctxNow (G.ctxTask s.currentTask) } := ⟨_, rfl⟩
  have hgo : G.CallsTaskGo s.currentTask s.hart
      (withArgs h G.ctxOs (G.ctxTask s.currentTask)) := by
    rw [hh]
    exact ⟨withArgs_old _ _ _, withArgs_new _ _ _, ⟨fun _ _ => rfl, rfl, rfl, rfl, rfl⟩, rfl⟩
  exact ⟨_, _, _, ⟨hcontrol, rfl, hgo, rfl, rfl⟩, rfl, rfl⟩

/-- The timer can interrupt a task whose stack has room. -/
theorem can_interrupt {i : Nat} (hcontrol : s.control = .task i) (harmed : CanTake s.hart .timer)
    (hroom : G.Room i C.frames (s.hart.reg .sp)) (l : Leftover) :
    ∃ saved entered t, schedStep C s (.leave i (.timer l) s.hart saved entered) t ∧
      t.control = .back ∧ t.currentTask = s.currentTask :=
  ⟨_, _, _, ⟨hcontrol, rfl, ⟨fun _ hi => Option.some.inj hi ▸ hroom, harmed⟩, rfl, rfl, rfl⟩,
    rfl, rfl⟩

/-- Back from `task_go`, `os_main` goes on to the next task. -/
theorem can_next (h : Scheduled G n s c) (hcontrol : s.control = .back) :
    ∃ t, schedStep C s .next t ∧ t.control = .osMain ∧ t.currentTask = (s.currentTask + 1) % n :=
  ⟨_, ⟨hcontrol, rfl⟩, rfl, by rw [h.toNat_taskTop]⟩

/-- One turn of a task that the timer ends. -/
theorem can_turn {U : TaskInit G} {P : Nat → Prop} (h : Scheduled G n s c)
    (hcan : Interruptible C n P s) (hcontrol : s.control = .osMain) (hp : P s.currentTask)
    (l : Leftover) : ∃ saved entered task saved' entered' t,
      (schedMachine C U).Run s [.activate s.currentTask saved entered,
        .leave s.currentTask (.timer l) task saved' entered', .next] t ∧
      (∃ d, Scheduled G n t d) ∧ Interruptible C n (fun j => P j ∧ j ≠ s.currentTask) t ∧
        t.control = .osMain ∧ t.currentTask = (s.currentTask + 1) % n := by
  obtain ⟨saved, entered, u, hfirst, hu, hucurrent⟩ := can_activate C hcontrol
  obtain ⟨c', -, hc'⟩ := h.activate (k := c.cont) hfirst
  have hcan' := hcan.activate h hfirst
  have hroom := hcan'.room s.currentTask h.current hp
  rw [spOf, if_pos (by rw [hu]; rfl)] at hroom
  obtain ⟨saved', entered', v, hsecond, hv, hvcurrent⟩ := can_interrupt C hu hcan'.armed hroom l
  obtain ⟨d, -, hd⟩ := hc'.leave (k := c.cont) hsecond
  obtain ⟨t, hthird, ht, htcurrent⟩ := can_next C hd hv
  refine ⟨saved, entered, u.hart, saved', entered', t,
    ((System.Run.single hfirst).snoc hsecond).snoc hthird, ⟨d, hd.next_step hthird⟩,
    (hcan'.leave hc' hsecond).next hd hthird, ht, ?_⟩
  rw [htcurrent, hvcurrent, hucurrent]

/-- How many turns of other tasks come before that of `i`, when `k` is next. -/
def turnsBefore (n i k : Nat) : Nat := if k ≤ i then i - k else i + n - k

/-- Another task's turn brings the turn of `i` nearer by one. -/
theorem turnsBefore_succ {i k : Nat} (hi : i < n) (hk : k < n) (hne : k ≠ i) :
    turnsBefore n i ((k + 1) % n) + 1 = turnsBefore n i k := by
  unfold turnsBefore
  by_cases hlast : k + 1 = n
  · rw [hlast, Nat.mod_self, if_pos (Nat.zero_le i), if_neg (by omega)]
    omega
  · rw [Nat.mod_eq_of_lt (by omega)]
    split <;> split <;> omega

/-- Fewer than `n` turns come before it. -/
theorem turnsBefore_lt {i k : Nat} (hi : i < n) (hk : k < n) : turnsBefore n i k < n := by
  unfold turnsBefore
  split <;> omega

/-- Behind its own turn all other tasks come first. -/
theorem turnsBefore_last {k : Nat} (hk : k < n) : turnsBefore n k ((k + 1) % n) + 1 = n := by
  unfold turnsBefore
  by_cases hlast : k + 1 = n
  · rw [hlast, Nat.mod_self, if_pos (Nat.zero_le k)]
    omega
  · rw [Nat.mod_eq_of_lt (by omega), if_neg (by omega)]
    omega

/-- At the loop of `os_main` it is the current task's turn. -/
theorem nextTurn_osMain (h : s.control = .osMain) : nextTurn n s = s.currentTask := by
  rw [nextTurn, h]

/-- Behind `task_go` it is the turn of the one after it. -/
theorem nextTurn_back (h : s.control = .back) : nextTurn n s = (s.currentTask + 1) % n := by
  rw [nextTurn, h]

/-- While a task runs, the one after it is next. -/
theorem nextTurn_task {j : Nat} (h : s.control = .task j) :
    nextTurn n s = (s.currentTask + 1) % n := by
  rw [nextTurn, h]

/-- How far the machine is from the next turn of task `i`. -/
def turnRank (n i : Nat) (s : Machine) : Nat :=
  3 * turnsBefore n i (nextTurn n s) +
    match s.control with
    | .task _ => 2
    | .back => 1
    | .osMain => 0

/-- The rank before a turn. -/
theorem turnRank_osMain {i : Nat} (h : s.control = .osMain) :
    turnRank n i s = 3 * turnsBefore n i s.currentTask := by
  rw [turnRank, nextTurn_osMain h, h]
  rfl

/-- The rank after a turn. -/
theorem turnRank_back {i : Nat} (h : s.control = .back) :
    turnRank n i s = 3 * turnsBefore n i ((s.currentTask + 1) % n) + 1 := by
  rw [turnRank, nextTurn_back h, h]

/-- The rank during a turn. -/
theorem turnRank_task {i j : Nat} (h : s.control = .task j) :
    turnRank n i s = 3 * turnsBefore n i ((s.currentTask + 1) % n) + 2 := by
  rw [turnRank, nextTurn_task h, h]

/-- The event is a step of the kernel or of the timer, and of no task. -/
def ByKernel : SchedEvent → Prop
  | .activate _ _ _ | .next | .leave _ (.timer _) _ _ _ => True
  | .work | .csrw | .trap _ _ | .leave _ .call _ _ _ => False

/-- Task `j` has the hart, or has a turn before task `i` does. -/
def ComesBefore (n i : Nat) (s : Machine) (j : Nat) : Prop :=
  s.control = .task j ∨ turnsBefore n j (nextTurn n s) < turnsBefore n i (nextTurn n s)

variable {U : TaskInit G}

/-- Short of the turn of task `i` a step of the kernel leads nearer to it, and takes
room from no task that comes before. -/
theorem turn_nearer {i : Nat} (hi : i < U.tasks.length)
    (h : (∃ c, Scheduled G U.tasks.length s c) ∧
      Interruptible C U.tasks.length (ComesBefore U.tasks.length i s) s)
    (hgoal : ¬ (s.control = .osMain ∧ s.currentTask = i)) :
    ∃ e t, ByKernel e ∧ (schedMachine C U).step s e t ∧
      ((∃ c, Scheduled G U.tasks.length t c) ∧
        Interruptible C U.tasks.length (ComesBefore U.tasks.length i t) t) ∧
      turnRank U.tasks.length i t < turnRank U.tasks.length i s := by
  obtain ⟨⟨c, hc⟩, hcan⟩ := h
  have hnext : (s.currentTask + 1) % U.tasks.length < U.tasks.length :=
    Nat.mod_lt _ (Nat.zero_lt_of_lt hi)
  cases hcontrol : s.control with
  | osMain =>
      have hne : s.currentTask ≠ i := fun h => hgoal ⟨hcontrol, h⟩
      obtain ⟨saved, entered, t, hstep, ht, hcurrent⟩ := can_activate C hcontrol
      obtain ⟨d, -, hd⟩ := hc.activate (k := c.cont) hstep
      have hfewer := turnsBefore_succ hi hc.current hne
      have hturn : nextTurn U.tasks.length t = (s.currentTask + 1) % U.tasks.length := by
        rw [nextTurn_task ht, hcurrent]
      refine ⟨.activate s.currentTask saved entered, t, trivial, hstep, ⟨⟨d, hd⟩,
        (hcan.activate hc hstep).mono fun j hj hbefore => Or.inr ?_⟩, ?_⟩
      · rw [nextTurn_osMain hcontrol]
        by_cases hj' : s.currentTask = j
        · rw [← hfewer, ← hj', turnsBefore, if_pos (Nat.le_refl _)]
          omega
        · have hsucc := turnsBefore_succ hj hc.current hj'
          rcases hbefore with hrun | hlt
          · rw [ht] at hrun
            exact absurd (Control.task.inj hrun) hj'
          · rw [hturn] at hlt
            omega
      · rw [turnRank_task ht, turnRank_osMain hcontrol, hcurrent]
        omega
  | task j =>
      obtain ⟨rfl, -, -⟩ := hc.task j hcontrol
      have hroom := hcan.room s.currentTask hc.current (Or.inl hcontrol)
      rw [spOf, if_pos (by rw [hcontrol]; rfl)] at hroom
      obtain ⟨saved, entered, t, hstep, ht, hcurrent⟩ :=
        can_interrupt C hcontrol hcan.armed hroom ⟨fun _ => 0#32, fun _ => 0#8⟩
      obtain ⟨d, -, hd⟩ := hc.leave (k := c.cont) hstep
      refine ⟨.leave s.currentTask (.timer _) s.hart saved entered, t, trivial, hstep, ⟨⟨d, hd⟩,
        (hcan.leave hc hstep).mono fun k hk hbefore => ?_⟩, ?_⟩
      · rcases hbefore with hrun | hlt
        · rw [ht] at hrun
          cases hrun
        · rw [nextTurn_back ht, hcurrent] at hlt
          refine ⟨Or.inr (by rwa [nextTurn_task hcontrol]), ?_⟩
          -- The turn of the task that leaves comes last.
          rintro rfl
          have hlast := turnsBefore_last hc.current
          have hbound := turnsBefore_lt hi hnext
          omega
      · rw [turnRank_back ht, turnRank_task hcontrol, hcurrent]
        omega
  | back =>
      obtain ⟨t, hstep, ht, hcurrent⟩ := can_next C hc hcontrol
      refine ⟨.next, t, trivial, hstep, ⟨⟨c, hc.next_step hstep⟩,
        (hcan.next hc hstep).mono fun k hk hbefore => Or.inr ?_⟩, ?_⟩
      · rcases hbefore with hrun | hlt
        · rw [ht] at hrun
          cases hrun
        · rw [nextTurn_osMain ht, hcurrent] at hlt
          rwa [nextTurn_back hcontrol]
      · rw [turnRank_osMain ht, turnRank_back hcontrol, hcurrent]
        omega

/-- No task can keep the hart while the timer's interrupt is enabled. From every
reachable state in which the stack of each task has room for one more entry of the
kernel, and for each task: the timer and the kernel lead to its next turn without a
single step of any task. -/
theorem preemptive_progress {G : KernelGlobals} (C : KernelCode G) (U : TaskInit G) {s : Machine}
    (hs : (schedMachine C U).Reachable s) (harmed : CanTake s.hart .timer)
    (hroom : ∀ j < U.tasks.length, G.Room j C.frames (spOf G s j)) {i : Nat}
    (hi : i < U.tasks.length) :
    ∃ es t saved entered,
      (schedMachine C U).Run s (es ++ [.activate i saved entered]) t ∧ ∀ e ∈ es, ByKernel e := by
  obtain ⟨es, t, hrun, hes, -, hcontrol, rfl⟩ :=
    System.run_to_goal (M := schedMachine C U) (turnRank U.tasks.length i)
      (fun s h hgoal => turn_nearer C hi h hgoal)
      ⟨scheduled_reachable hs, harmed, fun j hj _ => hroom j hj⟩
  obtain ⟨saved, entered, u, hstep, -⟩ := can_activate C hcontrol
  exact ⟨es, u, saved, entered, hrun.snoc hstep, hes⟩

end Progress

/-! ### Two tasks that never yield -/

/-- Globals as a linker lays them out. -/
def sampleKernel : KernelGlobals where
  toTaskTables := sampleTables
  ctxOs := 0x80003700#32
  ctxNow := 0x80003604#32
  saveArea := 0x80003800#32
  others_apart := by decide
  tables_apart := by decide

/-- `os_kernel` and `task_os` as code that ends in `sys_switch` without a frame of its
own. The handlers of traps have 64 bytes. -/
def sampleCode : KernelCode sampleKernel where
  platform := { osKernel := 0x80000100#32, mhartid := 0#32 }
  frames := 64
  call h :=
    { withArgs h (load32 h.mem sampleKernel.ctxNow) sampleKernel.ctxOs with
      mem := store32 h.mem sampleKernel.ctxNow sampleKernel.ctxOs }
  ret _ g := g
  calls _ _ h _ := ⟨withArgs_old h (load32 h.mem sampleKernel.ctxNow) sampleKernel.ctxOs,
    withArgs_new h (load32 h.mem sampleKernel.ctxNow) sampleKernel.ctxOs, fun _ _ => rfl, rfl,
    rfl, rfl⟩
  ret_pc _ _ _ _ _ h := h.pc
  ret_reg i hi h g hroom hret r hr := by
    refine (hret.reg r hr).trans ?_
    have h0 : r ≠ .a0 := fun h => by rw [h] at hr; exact absurd hr (by decide)
    have h1 : r ≠ .a1 := fun h => by rw [h] at hr; exact absurd hr (by decide)
    exact (Hart.setReg_reg_of_ne _ _ h1).trans (Hart.setReg_reg_of_ne _ _ h0)
  own _ _ := false
  own_apart _ _ h := by cases h

/-- Two tasks, created in cleared memory. -/
def sampleTasks : TaskInit sampleKernel where
  mem _ := 0#8
  tasks := [0x80000200#32, 0x80000300#32]
  taskTop_zero := by decide
  tasks_ne_nil := by decide
  length_le := by decide
  even := by simp

/-- `os_main` before its first round. -/
def sampleScheduler : Machine where
  hart :=
    { reg := fun _ => 0#32
      csr := fun c => if c = .mscratch then 0x80003800#32 else runningCsr c
      pc := 0x80000040#32
      mem := sampleKernel.userInit sampleTasks.mem sampleTasks.tasks }
  control := .osMain
  currentTask := 0

/-- The sample is an initial state. -/
theorem sampleScheduler_init : (schedMachine sampleCode sampleTasks).init sampleScheduler :=
  ⟨rfl, rfl, ⟨by decide, by decide⟩, rfl, rfl⟩

/-- Both stacks are empty. -/
theorem sampleScheduler_room : ∀ j < sampleTasks.tasks.length,
    sampleKernel.Room j sampleCode.frames (spOf sampleKernel sampleScheduler j) := by
  intro j hj x hx
  have hsp : spOf sampleKernel sampleScheduler j - BitVec.ofNat 32 sampleCode.frames
      = sampleKernel.stack j + BitVec.ofNat 32 959 :=
    (show ∀ j < 2, spOf sampleKernel sampleScheduler j - BitVec.ofNat 32 64
      = sampleKernel.stack j + BitVec.ofNat 32 959 by decide) j hj
  rw [hsp] at hx
  exact inRange_of_add (by decide) (by decide) hx

/-- The second task comes to its turn, although the first one does not give up
the hart. -/
theorem sampleScheduler_progress : ∃ es t saved entered,
    (schedMachine sampleCode sampleTasks).Run sampleScheduler
      (es ++ [.activate 1 saved entered]) t ∧ ∀ e ∈ es, ByKernel e :=
  preemptive_progress sampleCode sampleTasks
    (System.Reachable.of_init sampleScheduler_init) sampleScheduler_init.2.2.1
    sampleScheduler_room (by decide)

/-- What the handlers of the sample leave behind. -/
def sampleLeftover : Leftover := ⟨fun _ => 0#32, fun _ => 0#8⟩

/-- Each of the two tasks is interrupted in its first turn. Then the first one goes
on at its `ra`. -/
theorem sampleScheduler_roundRobin :
    ∃ saved entered task saved' entered' mid saved'' entered'' t,
      (schedMachine sampleCode sampleTasks).Run sampleScheduler
        ([.activate 0 saved entered] ++ .leave 0 (.timer sampleLeftover) task saved' entered' ::
          (mid ++ [.activate 0 saved'' entered''])) t ∧
      entered.pc = 0x80000200#32 ∧ GoesOn sampleCode 0 (.timer sampleLeftover) task entered'' := by
  -- The first turn, that of the other task, and the activation behind it.
  obtain ⟨saved, entered, task, saved', entered', s, hfirst, ⟨c, hc⟩, hcan, hcontrol, hcurrent⟩ :=
    can_turn (U := sampleTasks) (P := fun _ => True) sampleCode
      (scheduled_init sampleScheduler_init (osWaiting sampleKernel sampleScheduler.hart))
      ⟨sampleScheduler_init.2.2.1, fun j hj _ => sampleScheduler_room j hj⟩ rfl trivial
      sampleLeftover
  have hone : s.currentTask = 1 := hcurrent
  obtain ⟨sv, en, task₂, sv', en', t, hsecond, -, -, hcontrol', hcurrent'⟩ :=
    can_turn (U := sampleTasks) sampleCode hc hcan hcontrol ⟨trivial, by rw [hone]; decide⟩
      sampleLeftover
  obtain ⟨saved'', entered'', u, hlast, -⟩ := can_activate sampleCode hcontrol'
  rw [hone] at hsecond hcurrent'
  have hzero : t.currentTask = 0 := hcurrent'
  rw [hzero] at hlast
  have hstep : (schedMachine sampleCode sampleTasks).step t (.activate 0 saved'' entered'') u :=
    hlast
  have hrun := (hfirst.append hsecond).snoc hstep
  obtain ⟨-, hstart, hagain, -⟩ := preemptive_roundRobin sampleCode sampleTasks
    sampleScheduler_init hrun
  refine ⟨saved, entered, task, saved', entered', [.next, .activate 1 sv en,
    .leave 1 (.timer sampleLeftover) task₂ sv' en', .next], saved'', entered'', u, hrun, ?_, ?_⟩
  · obtain ⟨_, hpc, -⟩ := hstart [] 0 saved entered _ rfl (by simp [Stays])
    exact hpc
  · exact hagain [.activate 0 saved entered] 0 _ task saved' entered' [.next, .activate 1 sv en,
      .leave 1 (.timer sampleLeftover) task₂ sv' en', .next] saved'' entered'' [] rfl
      (by simp [Stays])

end MiniRiscvOs.Proofs
