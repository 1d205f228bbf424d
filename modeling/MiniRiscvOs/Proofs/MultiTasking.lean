import Mathlib.Tactic.IntervalCases
import MiniRiscvOs.Kernel.MultiTasking
import MiniRiscvOs.Lib.Contexts

/-!
# `MiniRiscvOs.Proofs.MultiTasking`: tasks as round-robin coroutines

The machine of `03-MultiTasking` is a simulation of `Coroutines.system`,
with the fourteen registers of a `struct context` as a continuation
(`coSimulation`). So each of its runs is round-robin
(`multitasking_roundRobin`).

The relation `Related` says of each context whose state it holds: that of
task `j` while `j` does not run, and that of `os_main` while a task does.
Each event is first reduced to what it does to the globals (`activate_spec`
and `yield_spec`), where the layout of the globals is used, and the
simulation then only compares the two machines.
-/

set_option autoImplicit false

namespace MiniRiscvOs.Proofs

open MiniRiscvOs.Lib
open MiniRiscvOs.Kernel.MultiTasking

/-! ### `sys_switch` -/

/-- The registers of a `struct context` with their offsets. -/
def ctxFrame : Frame :=
  [(.ra, 0), (.sp, 4), (.s0, 8), (.s1, 12), (.s2, 16), (.s3, 20), (.s4, 24), (.s5, 28),
   (.s6, 32), (.s7, 36), (.s8, 40), (.s9, 44), (.s10, 48), (.s11, 52)]

/-- The two macros use the same offsets. -/
theorem sysSwitch_eq (h : Hart) : sysSwitch h = h.switch ctxFrame .a0 .a1 := rfl

/-- The registers of `struct context` fit into it and do not overlap. -/
theorem ctxFrame_fits : FrameFits ctxFrame ctxSize where
  slots :=
    { apart := by decide
      inside := by decide
      size_le := by decide }
  nodup := by decide

/-- `sys_switch` between two contexts that do not overlap. -/
theorem sysSwitch_switched (h : Hart) (hapart : Apart (h.reg .a0) ctxSize (h.reg .a1) ctxSize) :
    Switched ctxFrame ctxSize (h.reg .a0) (h.reg .a1) h (sysSwitch h) := by
  rw [sysSwitch_eq]
  exact h.switched ctxFrame_fits (by decide) hapart

/-! ### The layout of the globals -/

/-- The globals as the layout of a switch. -/
def tables (G : Globals) : SwitchLayout where
  contextTable := ⟨G.ctxTasks, maxTask, ctxSize, by decide, by decide⟩
  stackTable := ⟨G.taskStack, maxTask, stackSize, by decide, by decide⟩
  scheduler := G.ctxOs
  current := G.ctxNow
  top := G.taskTop
  same_count := rfl
  apart := G.apart

/-! ### What a party leaves alone -/

section Keeps

variable {G : Globals} {who : Option Nat} {m m' : Mem}

/-- The context of `os_main` is kept. -/
theorem keeps_ctxOs (h : G.Keeps who m m') :
    frameAt m' G.ctxOs ctxFrame = frameAt m G.ctxOs ctxFrame :=
  frameAt_congr ctxFrame_fits fun x hx => h x (Or.inl (Or.inl hx))

/-- `ctx_now` is kept. -/
theorem keeps_ctxNow (h : G.Keeps who m m') : load32 m' G.ctxNow = load32 m G.ctxNow :=
  load32_congr fun x hx => h x (Or.inl (Or.inr (Or.inr (Or.inl hx))))

/-- `taskTop` is kept. -/
theorem keeps_taskTop (h : G.Keeps who m m') :
    load32 m' G.taskTop = load32 m G.taskTop :=
  load32_congr fun x hx => h x (Or.inl (Or.inr (Or.inr (Or.inr hx))))

/-- The context of each task is kept. -/
theorem keeps_ctxTask (h : G.Keeps who m m') {j : Nat} (hj : j < maxTask) :
    frameAt m' (G.ctxTask j) ctxFrame = frameAt m (G.ctxTask j) ctxFrame :=
  frameAt_congr ctxFrame_fits fun x hx => h x (Or.inl ((tables G).isGlobal_context hj hx))

/-- A party leaves alone what is private to another task. -/
theorem keeps_private (h : G.Keeps who m m') {j : Nat} (hj : j < maxTask)
    (hwho : who ≠ some j) {x : Addr} (hx : (tables G).Private j x) : m' x = m x := by
  cases hx with
  | inl hctx => exact h x (Or.inl ((tables G).isGlobal_context hj hctx))
  | inr hstack => exact h x (Or.inr ⟨j, hj, hwho, hstack⟩)

end Keeps

/-! ### What the two switches do -/

/-- `task_go(i)` from `h`, by way of the hart `g` that calls `sys_switch`,
to the hart `k` it returns to. -/
structure Activated (G : Globals) (i : Nat) (h g k : Hart) : Prop where
  entered : k.saved ctxFrame = frameAt h.mem (G.ctxTask i) ctxFrame
  left : frameAt k.mem G.ctxOs ctxFrame = g.saved ctxFrame
  pc : k.pc = k.reg .ra &&& ~~~1#32
  ctxNow : load32 k.mem G.ctxNow = G.ctxTask i
  taskTop : load32 k.mem G.taskTop = load32 h.mem G.taskTop
  priv : ∀ j < maxTask, ∀ x, (tables G).Private j x → k.mem x = h.mem x

/-- The lemma about `task_go`. -/
theorem activate_spec {G : Globals} {i : Nat} (hi : i < maxTask) {h g : Hart}
    (hgo : G.TaskGo i h g) : Activated G i h g (sysSwitch g) := by
  obtain ⟨hold, hnew, hkeeps⟩ := hgo
  have hapart : Apart G.ctxOs ctxSize (G.ctxTask i) ctxSize := (tables G).scheduler_apart_context hi
  have hswitch := sysSwitch_switched g (by rw [hold, hnew]; exact hapart)
  rw [hold, hnew] at hswitch
  constructor
  -- `ctx_now = &ctx_tasks[i]` comes before the switch, and is not in `ctx_tasks`.
  · rw [hswitch.entered, keeps_ctxTask hkeeps hi]
    apply frameAt_congr ctxFrame_fits
    intro x hx
    exact store32_of_not_inRange _ _ ((tables G).private_outside hi (Or.inl hx)).1
  · exact hswitch.left
  · exact hswitch.pc
  · have hnow : load32 (sysSwitch g).mem G.ctxNow = load32 g.mem G.ctxNow :=
      load32_congr fun x hx =>
        hswitch.frame x ((tables G).scheduler_apart_current.symm.not_inRange hx)
    rw [hnow, keeps_ctxNow hkeeps]
    exact load32_store32_same _ _ _
  · have htop : load32 (sysSwitch g).mem G.taskTop = load32 g.mem G.taskTop :=
      load32_congr fun x hx => hswitch.frame x ((tables G).scheduler_apart_top.symm.not_inRange hx)
    rw [htop, keeps_taskTop hkeeps]
    exact load32_store32_of_disjoint _ _ fun x => (tables G).current_apart_top.symm.not_inRange
  · intro j hj x hx
    obtain ⟨hnow, hos, -⟩ := (tables G).private_outside hj hx
    rw [hswitch.frame x hos, keeps_private hkeeps hj nofun hx]
    exact store32_of_not_inRange _ _ hnow

/-- `task_os()` in task `i` from `h`, by way of the hart `g` that calls
`sys_switch`, to the hart `k` it returns to. -/
structure Yielded (G : Globals) (i : Nat) (h g k : Hart) : Prop where
  entered : k.saved ctxFrame = frameAt h.mem G.ctxOs ctxFrame
  left : frameAt k.mem (G.ctxTask i) ctxFrame = g.saved ctxFrame
  pc : k.pc = k.reg .ra &&& ~~~1#32
  taskTop : load32 k.mem G.taskTop = load32 h.mem G.taskTop
  priv : ∀ j < maxTask, i ≠ j → ∀ x, (tables G).Private j x → k.mem x = h.mem x

/-- The lemma about `task_os`. -/
theorem yield_spec {G : Globals} {i : Nat} (hi : i < maxTask) {h g : Hart}
    (hnow : load32 h.mem G.ctxNow = G.ctxTask i) (hos : G.TaskOs i h g) :
    Yielded G i h g (sysSwitch g) := by
  obtain ⟨hold, hnew, hkeeps⟩ := hos
  -- `task_os` gets the context to save in from `ctx_now`.
  rw [hnow] at hold
  have hapart : Apart G.ctxOs ctxSize (G.ctxTask i) ctxSize := (tables G).scheduler_apart_context hi
  have hswitch := sysSwitch_switched g (by rw [hold, hnew]; exact hapart.symm)
  rw [hold, hnew] at hswitch
  constructor
  · rw [hswitch.entered, keeps_ctxOs hkeeps]
    apply frameAt_congr ctxFrame_fits
    intro x hx
    exact store32_of_not_inRange _ _ ((tables G).scheduler_apart_current.not_inRange hx)
  · exact hswitch.left
  · exact hswitch.pc
  · have htop : load32 (sysSwitch g).mem G.taskTop = load32 g.mem G.taskTop :=
      load32_congr fun x hx => hswitch.frame x fun hctx =>
        ((tables G).top_outside hx).2.2 i hi hctx
    rw [htop, keeps_taskTop hkeeps]
    exact load32_store32_of_disjoint _ _ fun x => (tables G).current_apart_top.symm.not_inRange
  · intro j hj hij x hx
    obtain ⟨hxnow, -, hctx⟩ := (tables G).private_outside hj hx
    have hwho : some i ≠ some j := fun h => hij (Option.some.inj h)
    rw [hswitch.frame x (hctx i hi hij), keeps_private hkeeps hj hwho hx]
    exact store32_of_not_inRange _ _ hxnow

/-! ### The contexts that `user_init` leaves -/

/-- What one `task_create` does. -/
structure Created (G : Globals) (k : Nat) (task : Addr) (m m' : Mem) : Prop where
  taskTop : load32 m' G.taskTop = BitVec.ofNat 32 (k + 1)
  ra : load32 m' (G.ctxTask k) = task
  sp : load32 m' (G.ctxTask k + BitVec.ofNat 32 4) = G.stackTop k
  frame : ∀ x, ¬ InRange G.taskTop 4 x → ¬ InRange (G.ctxTask k) 8 x → m' x = m x

/-- The first slots of a context are a piece of it. -/
theorem inRange_ctxTask {G : Globals} {k o n : Nat} (ho : o + n ≤ ctxSize) {x : Addr}
    (hx : InRange (G.ctxTask k + BitVec.ofNat 32 o) n x) : InRange (G.ctxTask k) ctxSize x :=
  inRange_of_add ho (by decide) hx

/-- No part of a context is a part of `taskTop`. -/
theorem not_inRange_taskTop {G : Globals} {k : Nat} (hk : k < maxTask) {x : Addr}
    (hx : InRange (G.ctxTask k) ctxSize x) : ¬ InRange G.taskTop 4 x :=
  (tables G).contexts_apart_top.not_inRange ((tables G).contextTable.holds_of_entry hk hx)

/-- The lemma about `task_create`. -/
theorem taskCreate_spec {G : Globals} {k : Nat} (hk : k < maxTask) {m : Mem}
    (htop : load32 m G.taskTop = BitVec.ofNat 32 k) (task : Addr) :
    Created G k task m (G.taskCreate m task) := by
  have hi : (load32 m G.taskTop).toNat = k := by
    rw [htop, BitVec.toNat_ofNat, Nat.mod_eq_of_lt]
    unfold maxTask at hk
    omega
  have hdef : G.taskCreate m task
      = store32 (store32 (store32 m G.taskTop (BitVec.ofNat 32 (k + 1))) (G.ctxTask k) task)
          (G.ctxTask k + BitVec.ofNat 32 4) (G.stackTop k) := by
    unfold Globals.taskCreate
    simp only [hi]
    rw [htop, ← BitVec.ofNat_add]
  have hra : ∀ x, InRange (G.ctxTask k) 4 x → InRange (G.ctxTask k) ctxSize x :=
    fun x hx => hx.mono (by decide)
  have hsp : ∀ x, InRange (G.ctxTask k + BitVec.ofNat 32 4) 4 x →
      InRange (G.ctxTask k) ctxSize x := fun x => inRange_ctxTask (by decide)
  rw [hdef]
  constructor
  · rw [load32_store32_of_disjoint _ _ fun x hx hin => not_inRange_taskTop hk (hsp x hin) hx,
      load32_store32_of_disjoint _ _ fun x hx hin => not_inRange_taskTop hk (hra x hin) hx]
    exact load32_store32_same _ _ _
  · rw [load32_store32_next]
    exact load32_store32_same _ _ _
  · exact load32_store32_same _ _ _
  · intro x hxtop hxctx
    -- Both stores to the context go to its first eight bytes.
    have hxra : ¬ InRange (G.ctxTask k) 4 x := fun hin => hxctx (hin.mono (by decide))
    have hxsp : ¬ InRange (G.ctxTask k + BitVec.ofNat 32 4) 4 x :=
      fun hin => hxctx (inRange_of_add (by decide) (by decide) hin)
    rw [store32_of_not_inRange _ _ hxsp, store32_of_not_inRange _ _ hxra,
      store32_of_not_inRange _ _ hxtop]

/-- What `user_init` does to the contexts from the `k`-th on. -/
structure Inited (G : Globals) (k : Nat) (tasks : List Addr) (m m' : Mem) : Prop where
  taskTop : load32 m' G.taskTop = BitVec.ofNat 32 (k + tasks.length)
  ra : ∀ i (hi : i < tasks.length), load32 m' (G.ctxTask (k + i)) = tasks[i]
  sp : ∀ i < tasks.length,
    load32 m' (G.ctxTask (k + i) + BitVec.ofNat 32 4) = G.stackTop (k + i)
  frame : ∀ x, ¬ InRange G.taskTop 4 x →
    (∀ i < tasks.length, ¬ InRange (G.ctxTask (k + i)) 8 x) → m' x = m x

/-- Induction on the tasks. The later ones leave the first context alone. -/
theorem userInit_spec {G : Globals} (tasks : List Addr) :
    ∀ (k : Nat) (m : Mem), k + tasks.length ≤ maxTask →
      load32 m G.taskTop = BitVec.ofNat 32 k → Inited G k tasks m (G.userInit m tasks) := by
  induction tasks with
  | nil =>
      intro k m _ htop
      exact ⟨htop, nofun, nofun, fun _ _ _ => rfl⟩
  | cons task tasks ih =>
      intro k m hle htop
      rw [List.length_cons] at hle
      have hk : k < maxTask := by omega
      have hone := taskCreate_spec hk htop task
      have hrest := ih (k + 1) (G.taskCreate m task) (by omega) hone.taskTop
      have hdef : G.userInit m (task :: tasks) = G.userInit (G.taskCreate m task) tasks := rfl
      have hshift : ∀ i, k + (i + 1) = k + 1 + i := fun i => by omega
      -- The later calls write other contexts and `taskTop`.
      have hfirst : ∀ x, InRange (G.ctxTask k) 8 x →
          G.userInit (G.taskCreate m task) tasks x = G.taskCreate m task x := by
        intro x hx
        have hin : InRange (G.ctxTask k) ctxSize x := hx.mono (by decide)
        refine hrest.frame x (not_inRange_taskTop hk hin) fun i hi hin' => ?_
        have hapart : Apart (G.ctxTask k) ctxSize (G.ctxTask (k + 1 + i)) ctxSize :=
          (tables G).contextTable.entry_apart_entry hk (show k + 1 + i < maxTask by omega)
            (by omega)
        exact hapart.not_inRange hin (hin'.mono (by decide))
      -- Context `k + i` is the first one for `i = 0`, and one of the rest else.
      rw [hdef]
      constructor
      · rw [List.length_cons, hrest.taskTop]
        congr 1
        omega
      · intro i hi
        cases i with
        | zero =>
            have hkept : load32 (G.userInit (G.taskCreate m task) tasks) (G.ctxTask k)
                = load32 (G.taskCreate m task) (G.ctxTask k) := by
              apply load32_congr
              intro x hx
              exact hfirst x (hx.mono (by decide))
            exact hkept.trans hone.ra
        | succ i =>
            rw [hshift]
            exact hrest.ra i (by simpa using hi)
      · intro i hi
        cases i with
        | zero =>
            refine Eq.trans ?_ hone.sp
            apply load32_congr
            intro x hx
            exact hfirst x (inRange_of_add (by decide) (by decide) hx)
        | succ i =>
            rw [hshift]
            exact hrest.sp i (by simpa using hi)
      · intro x hxtop hxctx
        rw [hrest.frame x hxtop fun i hi => ?_]
        · exact hone.frame x hxtop (hxctx 0 (by simp))
        · rw [← hshift]
          exact hxctx (i + 1) (by simpa using hi)

/-! ### The simulation -/

/-- A place to go on at: where `sys_switch` returns to, and the registers
it loads. -/
structure Cont where
  pc : Word
  ctx : List Word
deriving DecidableEq

/-- The continuation that the registers of a context make up. The first of
them is `ra`. -/
def contOf (ctx : List Word) : Cont := ⟨ctx.headD 0#32 &&& ~~~1#32, ctx⟩

/-- What a hart that calls `sys_switch` leaves behind. -/
def leaves (h : Hart) : Cont := contOf (h.saved ctxFrame)

/-- What a hart that `sys_switch` has returned to goes on with. -/
def enters (h : Hart) : Cont := ⟨h.pc, h.saved ctxFrame⟩

/-- The switches of control as an observer sees them. -/
def observe : Event → List (CoEvent Cont)
  | .work | .next => []
  | .activate i saved entered => [.activate i (leaves saved) (enters entered)]
  | .yield i saved entered => [.yield i (leaves saved) (enters entered)]

/-- A hart enters at the continuation of the context it was loaded from. -/
theorem enters_eq {h : Hart} {ctx : List Word} (hctx : h.saved ctxFrame = ctx)
    (hpc : h.pc = h.reg .ra &&& ~~~1#32) : enters h = contOf ctx := by
  subst hctx
  show Cont.mk h.pc _ = Cont.mk _ _
  rw [hpc]
  rfl

/-- The context of task `i` after `user_init`: its function, the end of its
stack, and whatever the memory held for the other registers. -/
def UserInit.context {G : Globals} (U : UserInit G) (i : Nat) : List Word :=
  U.tasks.getD i 0#32 :: G.stackTop i :: frameAt U.mem (G.ctxTask i) (ctxFrame.drop 2)

section Simulation

variable {G : Globals} (U : UserInit G)

/-- The number of tasks. -/
abbrev numTasks : Nat := U.tasks.length

/-- There is a task. -/
theorem numTasks_pos : 0 < numTasks U := List.length_pos_iff.mpr U.tasks_ne_nil

/-- Task `i` starts in its function. -/
theorem context_pc {i : Nat} (hi : i < numTasks U) :
    (contOf (UserInit.context U i)).pc = U.tasks[i] := by
  have hget : U.tasks.getD i 0#32 = U.tasks[i] := by simp [List.getD_eq_getElem?_getD, hi]
  show U.tasks.getD i 0#32 &&& ~~~1#32 = U.tasks[i]
  rw [hget]
  exact U.even _ (List.getElem_mem hi)

/-- `user_init` leaves its context to each task. -/
theorem frameAt_userInit {i : Nat} (hi : i < numTasks U) :
    frameAt (G.userInit U.mem U.tasks) (G.ctxTask i) ctxFrame = UserInit.context U i := by
  have hinit := userInit_spec U.tasks 0 U.mem (by simpa using U.length_le) U.taskTop_zero
  have hra := hinit.ra i hi
  have hsp := hinit.sp i hi
  rw [Nat.zero_add] at hra hsp
  have hmax : i < maxTask := Nat.lt_of_lt_of_le hi U.length_le
  have hget : U.tasks.getD i 0#32 = U.tasks[i] := by simp [List.getD_eq_getElem?_getD, hi]
  have hsplit : ∀ m : Mem, frameAt m (G.ctxTask i) ctxFrame
      = load32 m (G.ctxTask i + BitVec.ofNat 32 0) ::
        load32 m (G.ctxTask i + BitVec.ofNat 32 4) ::
        frameAt m (G.ctxTask i) (ctxFrame.drop 2) := fun _ => rfl
  rw [hsplit, add_ofNat_zero, hra, hsp, UserInit.context, hget]
  congr 2
  apply List.map_congr_left
  intro p hp
  -- The other slots lie behind the first eight bytes of their context.
  have hslot : 8 ≤ p.2 ∧ p.2 + 4 ≤ ctxSize :=
    (show ∀ p ∈ ctxFrame.drop 2, 8 ≤ p.2 ∧ p.2 + 4 ≤ ctxSize by decide) p hp
  apply load32_congr
  intro x hx
  have hin : InRange (G.ctxTask i) ctxSize x := inRange_ctxTask hslot.2 hx
  refine hinit.frame x (not_inRange_taskTop hmax hin) fun j hj hin' => ?_
  rw [Nat.zero_add] at hin'
  by_cases hji : j = i
  · subst hji
    have hsmall := hslot.2
    unfold ctxSize at hsmall
    unfold InRange at hx hin'
    bv_omega
  · have hapart : Apart (G.ctxTask j) ctxSize (G.ctxTask i) ctxSize :=
      (tables G).contextTable.entry_apart_entry (Nat.lt_of_lt_of_le hj U.length_le) hmax hji
    exact hapart.not_inRange (hin'.mono (by decide)) hin

/-- The task that `os_main` activates next. -/
def nextTask (s : Machine) : Nat :=
  match s.control with
  | .osMain => s.currentTask
  | .back | .task _ => (s.currentTask + 1) % numTasks U

/-- The contexts of the machine hold the continuations of the coroutines. -/
structure Related (s : Machine) (c : Coroutines Cont) : Prop where
  taskTop : load32 s.hart.mem G.taskTop = BitVec.ofNat 32 (numTasks U)
  running : s.control.who = c.running
  next : nextTask U s = c.count % numTasks U
  current : s.currentTask < numTasks U
  task : ∀ i, s.control = .task i → i = s.currentTask ∧
    load32 s.hart.mem G.ctxNow = G.ctxTask i ∧
    contOf (frameAt s.hart.mem G.ctxOs ctxFrame) = c.sched
  waiting : ∀ j < numTasks U, s.control.who ≠ some j →
    contOf (frameAt s.hart.mem (G.ctxTask j) ctxFrame) = c.cont j

/-- The coroutines that the tasks are. -/
abbrev coroutines : System (Coroutines Cont) (CoEvent Cont) :=
  Coroutines.system (numTasks U) fun i => contOf (UserInit.context U i)

variable {U} {s t : Machine} {c : Coroutines Cont}

/-- The current task has a context. -/
theorem Related.lt_maxTask (h : Related U s c) : s.currentTask < maxTask :=
  Nat.lt_of_lt_of_le h.current U.length_le

/-- Work changes no context. -/
theorem Related.work (h : Related U s c) (hstep : G.step s .work t) : Related U t c := by
  obtain ⟨hkeeps, hcontrol, hcurrent⟩ := hstep
  constructor
  · rw [keeps_taskTop hkeeps]
    exact h.taskTop
  · rw [hcontrol]
    exact h.running
  · rw [nextTask, hcontrol, hcurrent]
    exact h.next
  · rw [hcurrent]
    exact h.current
  · intro i hi
    rw [keeps_ctxNow hkeeps, keeps_ctxOs hkeeps, hcurrent]
    exact h.task i (hcontrol ▸ hi)
  · intro j hj hwho
    rw [keeps_ctxTask hkeeps (Nat.lt_of_lt_of_le hj U.length_le)]
    exact h.waiting j hj (hcontrol ▸ hwho)

/-- `os_main` hands over to the next task. -/
theorem Related.activate (h : Related U s c) {i : Nat} {saved entered : Hart}
    (hstep : G.step s (.activate i saved entered) t) :
    ∃ d, (coroutines U).step c (.activate i (leaves saved) (enters entered)) d ∧
      Related U t d := by
  obtain ⟨hcontrol, rfl, hgo, rfl, rfl⟩ := hstep
  have hspec := activate_spec h.lt_maxTask hgo
  have hrunning : c.running = none := by rw [← h.running, hcontrol]; rfl
  have hdue : s.currentTask = c.count % numTasks U := by
    have := h.next
    rwa [nextTask, hcontrol] at this
  have hentered : enters (sysSwitch saved) = c.cont s.currentTask := by
    rw [enters_eq hspec.entered hspec.pc]
    exact h.waiting _ h.current (by rw [hcontrol]; nofun)
  refine ⟨_, ⟨hrunning, hdue, hentered, rfl⟩, ?_⟩
  constructor
  · exact hspec.taskTop.trans h.taskTop
  · rfl
  · show (s.currentTask + 1) % numTasks U = (c.count + 1) % numTasks U
    rw [hdue, Nat.mod_add_mod]
  · exact h.current
  · intro i hi
    -- The context of `os_main` holds where it is left.
    obtain rfl : s.currentTask = i := by simpa using hi
    exact ⟨rfl, hspec.ctxNow, congrArg contOf hspec.left⟩
  · intro j hj hwho
    have hkept : frameAt (sysSwitch saved).mem (G.ctxTask j) ctxFrame
        = frameAt s.hart.mem (G.ctxTask j) ctxFrame :=
      frameAt_congr ctxFrame_fits fun x hx =>
        hspec.priv j (Nat.lt_of_lt_of_le hj U.length_le) x (Or.inl hx)
    rw [hkept]
    exact h.waiting j hj (by rw [hcontrol]; nofun)

/-- A task hands over to `os_main`. -/
theorem Related.yield (h : Related U s c) {i : Nat} {saved entered : Hart}
    (hstep : G.step s (.yield i saved entered) t) :
    ∃ d, (coroutines U).step c (.yield i (leaves saved) (enters entered)) d ∧
      Related U t d := by
  obtain ⟨hcontrol, hos, rfl, rfl⟩ := hstep
  obtain ⟨rfl, hnow, hsched⟩ := h.task i hcontrol
  have hspec := yield_spec h.lt_maxTask hnow hos
  have hrunning : c.running = some s.currentTask := by rw [← h.running, hcontrol]; rfl
  have hentered : enters (sysSwitch saved) = c.sched := by
    rw [enters_eq hspec.entered hspec.pc]
    exact hsched
  refine ⟨_, ⟨hrunning, hentered, rfl⟩, ?_⟩
  constructor
  · exact hspec.taskTop.trans h.taskTop
  · rfl
  · have := h.next
    rwa [nextTask, hcontrol] at this
  · exact h.current
  · nofun
  · intro j hj _
    -- The task that hands over has its new continuation, the others their old.
    by_cases hij : s.currentTask = j
    · subst hij
      show _ = Function.update c.cont s.currentTask (leaves saved) s.currentTask
      rw [Function.update_self, hspec.left]
      rfl
    · have hkept : frameAt (sysSwitch saved).mem (G.ctxTask j) ctxFrame
          = frameAt s.hart.mem (G.ctxTask j) ctxFrame :=
        frameAt_congr ctxFrame_fits fun x hx =>
          hspec.priv j (Nat.lt_of_lt_of_le hj U.length_le) hij x (Or.inl hx)
      show _ = Function.update c.cont s.currentTask (leaves saved) j
      rw [Function.update_of_ne (Ne.symm hij), hkept]
      exact h.waiting j hj (by rw [hcontrol]; simpa [Control.who] using hij)

/-- `taskTop` as a number. -/
theorem Related.toNat_taskTop (h : Related U s c) :
    (load32 s.hart.mem G.taskTop).toNat = numTasks U := by
  have hle : numTasks U ≤ maxTask := U.length_le
  unfold maxTask at hle
  rw [h.taskTop, BitVec.toNat_ofNat, Nat.mod_eq_of_lt (by omega)]

/-- `os_main` computes the next task. -/
theorem Related.next_step (h : Related U s c) (hstep : G.step s .next t) : Related U t c := by
  obtain ⟨hcontrol, rfl⟩ := hstep
  -- `taskTop` is the number of tasks, so the modulus is not zero.
  have htop := h.toNat_taskTop
  constructor
  · exact h.taskTop
  · show none = c.running
    rw [← h.running, hcontrol]
    rfl
  · show (s.currentTask + 1) % (load32 s.hart.mem G.taskTop).toNat = c.count % numTasks U
    have := h.next
    rw [htop]
    rwa [nextTask, hcontrol] at this
  · show (s.currentTask + 1) % (load32 s.hart.mem G.taskTop).toNat < numTasks U
    rw [htop]
    exact Nat.mod_lt _ (numTasks_pos U)
  · nofun
  · intro j hj _
    exact h.waiting j hj (by rw [hcontrol]; nofun)

/-- At the first round, every context is as `user_init` left it. -/
theorem related_init (hinit : (machine G U).init s) (sched : Cont) :
    Related U s ⟨fun i => contOf (UserInit.context U i), sched, none, 0⟩ := by
  obtain ⟨hmem, hcontrol, hcurrent⟩ := hinit
  constructor
  · have hspec := userInit_spec U.tasks 0 U.mem (by simpa using U.length_le) U.taskTop_zero
    rw [hmem, hspec.taskTop, Nat.zero_add]
  · rw [hcontrol]
    rfl
  · rw [nextTask, hcontrol]
    exact hcurrent
  · rw [hcurrent]
    exact numTasks_pos U
  · rw [hcontrol]
    nofun
  · intro j hj _
    rw [hmem, frameAt_userInit U hj]

/-- The machine is a simulation of the coroutines. -/
def coSimulation (U : UserInit G) : Simulation (machine G U) (coroutines U) observe where
  rel := Related U
  init _ hinit := ⟨_, ⟨rfl, rfl, rfl⟩, related_init hinit (contOf [])⟩
  step s e t c h hstep := by
    cases e with
    | work => exact ⟨c, System.Run.nil c, h.work hstep⟩
    | activate i saved entered =>
        obtain ⟨d, hco, hd⟩ := h.activate hstep
        exact ⟨d, System.Run.single hco, hd⟩
    | yield i saved entered =>
        obtain ⟨d, hco, hd⟩ := h.yield hstep
        exact ⟨d, System.Run.single hco, hd⟩
    | next => exact ⟨c, System.Run.nil c, h.next_step hstep⟩

end Simulation

/-! ### The runs of the machine -/

section Runs

variable {G : Globals} {U : UserInit G} {s t : Machine}

/-- A reachable state is related to a state of the coroutines. -/
theorem related_reachable (h : (machine G U).Reachable s) : ∃ c, Related U s c := by
  obtain ⟨s₀, es, hinit, hrun⟩ := h
  obtain ⟨c, -, hrel⟩ := (coSimulation U).init s₀ hinit
  obtain ⟨d, -, hd⟩ := (coSimulation U).run hrel hrun
  exact ⟨d, hd⟩

/-- What is private to a task stays as it is while that task does not run. -/
theorem private_kept (h : (machine G U).Reachable s) {e : Event} (hstep : G.step s e t) {j : Nat}
    (hj : j < maxTask) (hother : s.control ≠ .task j) {x : Addr} (hx : (tables G).Private j x) :
    t.hart.mem x = s.hart.mem x := by
  obtain ⟨c, hc⟩ := related_reachable h
  cases e with
  | work =>
      obtain ⟨hkeeps, -, -⟩ := hstep
      refine keeps_private hkeeps hj ?_ hx
      cases hcontrol : s.control with
      | osMain | back => nofun
      | task i =>
          rw [hcontrol] at hother
          simpa [Control.who] using hother
  | activate i saved entered =>
      -- The switches store to contexts of others only: that of the OS, and that of
      -- the task that leaves.
      obtain ⟨-, rfl, hgo, rfl, rfl⟩ := hstep
      exact (activate_spec hc.lt_maxTask hgo).priv j hj x hx
  | yield i saved entered =>
      obtain ⟨hcontrol, hos, rfl, rfl⟩ := hstep
      obtain ⟨rfl, hnow, -⟩ := hc.task i hcontrol
      have hij : s.currentTask ≠ j := fun hij => hother (hij ▸ hcontrol)
      exact (yield_spec hc.lt_maxTask hnow hos).priv j hj hij x hx
  | next =>
      obtain ⟨-, rfl⟩ := hstep
      rfl

/-- The end of a stack is in that stack. -/
theorem stackTop_mem (G : Globals) (i : Nat) : G.Stack i (G.stackTop i) :=
  (inRange_add_ofNat (G.stack i) (by decide)).mpr (by decide)

/-- A task that has not yielded yet is entered at its function, with its
stack pointer in its own stack. -/
theorem first_entry {i : Nat} (hi : i < numTasks U) {entered : Hart}
    (h : enters entered = contOf (UserInit.context U i)) :
    entered.pc = U.tasks[i] ∧ G.Stack i (entered.reg .sp) := by
  have hpc : entered.pc = (contOf (UserInit.context U i)).pc := congrArg Cont.pc h
  have hctx : entered.saved ctxFrame = UserInit.context U i := congrArg Cont.ctx h
  have hsp : entered.reg .sp = G.stackTop i := by
    have := congrArg (fun ctx => ctx[1]?) hctx
    simpa [Hart.saved, ctxFrame, UserInit.context] using this
  exact ⟨hpc.trans (context_pc U hi), hsp ▸ stackTop_mem G i⟩

/-- Round-robin events activate existing tasks only. -/
theorem activated_lt {es : List (CoEvent Cont)} {n i : Nat} {start : Nat → Cont}
    (h : RoundRobin n start es) (hn : 0 < n) {saved entered : Cont}
    (hmem : CoEvent.activate i saved entered ∈ es) : i < n := by
  have hact : i ∈ activations es := List.mem_filterMap.mpr ⟨_, hmem, rfl⟩
  rw [h.order] at hact
  obtain ⟨k, -, rfl⟩ := List.mem_map.mp hact
  exact Nat.mod_lt k hn

/-- The tasks of `03-MultiTasking` are coroutines, and `os_main` is their
round-robin scheduler: on every run, the `k`-th activation is of task
`k % n`, a task goes on exactly where it last called `sys_switch`, and
`os_main` where it last did. A task's first activation enters its function
on its own stack. While a task does not run, nothing alters its context or
its stack. -/
theorem multitasking_roundRobin (G : Globals) (U : UserInit G) {s t : Machine} {es : List Event}
    (hinit : (machine G U).init s) (hrun : (machine G U).Run s es t) :
    RoundRobin (numTasks U) (fun i => contOf (UserInit.context U i)) (es.flatMap observe) ∧
    (∀ pre i saved entered post, es = pre ++ .activate i saved entered :: post →
      lastYield i (pre.flatMap observe) = none →
      ∃ hi : i < numTasks U, entered.pc = U.tasks[i] ∧ G.Stack i (entered.reg .sp)) ∧
    (∀ pre e post u v, es = pre ++ e :: post → (machine G U).Run s pre u → G.step u e v →
      ∀ j < maxTask, u.control ≠ .task j → ∀ x,
        InRange (G.ctxTask j) ctxSize x ∨ G.Stack j x → v.hart.mem x = u.hart.mem x) := by
  obtain ⟨c, hcinit, hrel⟩ := (coSimulation U).init s hinit
  obtain ⟨d, hcrun, -⟩ := (coSimulation U).run hrel hrun
  have hrobin := Coroutines.roundRobin hcinit hcrun
  refine ⟨hrobin, ?_, ?_⟩
  · intro pre i saved entered post hes hfirst
    -- The same activation among the events that are observed.
    have hobs : es.flatMap observe = pre.flatMap observe ++
        .activate i (leaves saved) (enters entered) :: post.flatMap observe := by
      rw [hes, List.flatMap_append, List.flatMap_cons]
      rfl
    have hmem : CoEvent.activate i (leaves saved) (enters entered) ∈ es.flatMap observe := by
      rw [hobs]
      exact List.mem_append_right _ List.mem_cons_self
    have hi : i < numTasks U := activated_lt hrobin (numTasks_pos U) hmem
    have hentered := (hrobin.resumes _ _ _ _ _ hobs).2
    rw [hfirst] at hentered
    exact ⟨hi, first_entry hi hentered⟩
  · intro pre e post u v _ hpre hstep j hj hother x hx
    exact private_kept ⟨s, pre, hinit, hpre⟩ hstep hj hother hx

end Runs

/-! ### Two tasks -/

/-- The hart as it calls `sys_switch(old, new)` with `ctx_now` set to
`now`. -/
def callSwitch (G : Globals) (h : Hart) (old new now : Addr) : Hart :=
  { (h.setReg .a0 old).setReg .a1 new with mem := store32 h.mem G.ctxNow now }

/-- A turn in which the task sets `s0` to `v`, yields, and `os_main` computes
the next task. -/
theorem turn_exists {G : Globals} {U : UserInit G} {s : Machine} {c : Coroutines Cont}
    (h : Related U s c) (hcontrol : s.control = .osMain) (v : Word) :
    ∃ saved entered left back t, (machine G U).Run s
        [.activate s.currentTask saved entered, .work, .yield s.currentTask left back, .next] t ∧
      left.reg .s0 = v ∧ (∃ d, Related U t d) ∧ t.control = .osMain ∧
      t.currentTask = (s.currentTask + 1) % numTasks U := by
  -- `go` and `left` are the harts at the two calls of `sys_switch`, and `busy` is
  -- the task's after its own code.
  obtain ⟨go, hgo⟩ : ∃ go, go = callSwitch G s.hart G.ctxOs (G.ctxTask s.currentTask)
    (G.ctxTask s.currentTask) := ⟨_, rfl⟩
  have hactivate : G.step s (.activate s.currentTask go (sysSwitch go))
      ⟨sysSwitch go, .task s.currentTask, s.currentTask⟩ := by
    refine ⟨hcontrol, rfl, ?_, rfl, rfl⟩
    rw [hgo]
    exact ⟨rfl, rfl, fun _ _ => rfl⟩
  obtain ⟨c₁, -, h₁⟩ := h.activate hactivate
  obtain ⟨busy, hbusy⟩ : ∃ busy, busy = (sysSwitch go).setReg .s0 v := ⟨_, rfl⟩
  have hwork : G.step ⟨sysSwitch go, .task s.currentTask, s.currentTask⟩ .work
      ⟨busy, .task s.currentTask, s.currentTask⟩ := by
    refine ⟨fun x _ => ?_, rfl, rfl⟩
    rw [hbusy]
    rfl
  have h₂ := h₁.work hwork
  obtain ⟨left, hleft⟩ : ∃ left, left = callSwitch G busy (load32 busy.mem G.ctxNow) G.ctxOs
    G.ctxOs := ⟨_, rfl⟩
  have hyield : G.step ⟨busy, .task s.currentTask, s.currentTask⟩
      (.yield s.currentTask left (sysSwitch left)) ⟨sysSwitch left, .back, s.currentTask⟩ := by
    refine ⟨rfl, ?_, rfl, rfl⟩
    rw [hleft]
    exact ⟨rfl, rfl, fun _ _ => rfl⟩
  obtain ⟨c₃, -, h₃⟩ := h₂.yield hyield
  have hnext : G.step ⟨sysSwitch left, .back, s.currentTask⟩ .next
      ⟨sysSwitch left, .osMain, (s.currentTask + 1) % numTasks U⟩ := by
    refine ⟨rfl, ?_⟩
    rw [h₃.toNat_taskTop]
  have hs0 : left.reg .s0 = v := by
    rw [hleft, hbusy]
    rfl
  exact ⟨go, sysSwitch go, left, sysSwitch left, _,
    (((System.Run.single hactivate).snoc hwork).snoc hyield).snoc hnext, hs0,
    ⟨c₃, h₃.next_step hnext⟩, rfl, rfl⟩

/-- Globals as a linker lays them out. -/
def sampleGlobals : Globals where
  ctxOs := 0x80003000#32
  ctxTasks := 0x80003040#32
  ctxNow := 0x80003300#32
  taskTop := 0x80003304#32
  taskStack := 0x80004000#32
  apart := by decide

/-- Two tasks, created in cleared memory. -/
def sampleInit : UserInit sampleGlobals where
  mem _ := 0#8
  tasks := [0x80000100#32, 0x80000200#32]
  taskTop_zero := by decide
  tasks_ne_nil := by decide
  length_le := by decide
  even := by simp

/-- `os_main` before its first round. -/
def sampleBooted : Hart where
  reg r := if r = .sp then 0x80007ff0#32 else 0xa5a5a5a5#32
  csr _ := 0#32
  pc := 0x80000040#32
  mem := sampleGlobals.userInit sampleInit.mem sampleInit.tasks

/-- Each task has a turn, and then the first one has its second turn. It finds
the number 7 that it left in `s0`, where the second task left 9. -/
theorem sample_roundRobin :
    ∃ go₀ in₀ left₀ back₀ go₁ in₁ left₁ back₁ go₂ in₂ t,
      (machine sampleGlobals sampleInit).Run ⟨sampleBooted, .osMain, 0⟩
        ([.activate 0 go₀ in₀, .work, .yield 0 left₀ back₀, .next, .activate 1 go₁ in₁, .work,
          .yield 1 left₁ back₁, .next] ++ [.activate 0 go₂ in₂]) t ∧
      left₀.reg .s0 = 7#32 ∧ left₁.reg .s0 = 9#32 ∧ in₂.reg .s0 = 7#32 := by
  have hinit : (machine sampleGlobals sampleInit).init ⟨sampleBooted, .osMain, 0⟩ :=
    ⟨rfl, rfl, rfl⟩
  obtain ⟨go₀, in₀, left₀, back₀, s₁, hfirst, hseven, ⟨c₁, h₁⟩, hcontrol₁, hcurrent₁⟩ :=
    turn_exists (related_init hinit (contOf [])) rfl 7#32
  obtain ⟨go₁, in₁, left₁, back₁, s₂, hsecond, hnine, ⟨c₂, h₂⟩, hcontrol₂, hcurrent₂⟩ :=
    turn_exists h₁ hcontrol₁ 9#32
  obtain ⟨go₂, in₂, left₂, back₂, s₃, hthird, -⟩ := turn_exists h₂ hcontrol₂ 0#32
  have hone : s₁.currentTask = 1 := hcurrent₁
  rw [hone] at hsecond hcurrent₂
  have hzero : s₂.currentTask = 0 := hcurrent₂
  rw [hzero] at hthird
  -- Of the third turn only the activation is needed.
  have hturn : (machine sampleGlobals sampleInit).Run s₂
      ([.activate 0 go₂ in₂] ++ [.work, .yield 0 left₂ back₂, .next]) s₃ := hthird
  obtain ⟨t, hagain, -⟩ := hturn.split
  have hrun := (hfirst.append hsecond).append hagain
  obtain ⟨hrobin, -, -⟩ := multitasking_roundRobin sampleGlobals sampleInit hinit hrun
  have hfound : enters in₂ = leaves left₀ :=
    (hrobin.resumes [.activate 0 (leaves go₀) (enters in₀), .yield 0 (leaves left₀) (enters back₀),
      .activate 1 (leaves go₁) (enters in₁), .yield 1 (leaves left₁) (enters back₁)] 0
      (leaves go₂) (enters in₂) [] rfl).2
  have hs0 : some (in₂.reg .s0) = some (left₀.reg .s0) := congrArg (fun k => k.ctx[2]?) hfound
  exact ⟨go₀, in₀, left₀, back₀, go₁, in₁, left₁, back₁, go₂, in₂, t, hrun, hseven, hnine,
    (Option.some.inj hs0).trans hseven⟩

end MiniRiscvOs.Proofs
