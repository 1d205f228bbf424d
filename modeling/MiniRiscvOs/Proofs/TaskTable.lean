import MiniRiscvOs.Kernel.TaskTable
import MiniRiscvOs.Lib.Contexts

/-!
# `MiniRiscvOs.Proofs.TaskTable`: tasks and their slots

`task_create` takes the next slot and does not look at the size of the
table. So it registers each of the first `MAX_TASK` tasks in a slot of its
own (`taskCreate_registers`), and writes behind its tables for any further
one. `os_main` goes to slot 0 first, whether or not there is a task.

`taskTable_iff` puts both together: all calls of a run behave exactly when
at most `MAX_TASK` tasks are created, the first of them before `os_main`
goes to a task.
-/

set_option autoImplicit false

namespace MiniRiscvOs.Proofs

open MiniRiscvOs.Lib
open MiniRiscvOs.Kernel.SystemCall

/-! ### The tables -/

section Tables

variable (G : TaskTables) {i : Nat}

/-- `ctx_tasks`. -/
def contextsOf : Table := ⟨G.ctxTasks, maxTask, contextSize, by decide, by decide⟩

/-- `task_stack`. -/
def stacksOf : Table := ⟨G.taskStack, maxTask, stackSize, by decide, by decide⟩

/-- `taskTop` is no part of the contexts. -/
theorem taskTop_apart_ctxTasks : Apart G.ctxTasks (maxTask * contextSize) G.taskTop 4 :=
  apart_of_layout G.apart 0 2 (by decide) (by simp)

/-- The initial stack pointer of a task is in its stack. -/
theorem inRange_stackTop :
    InRange (G.stack i) stackSize (G.stack i + BitVec.ofNat 32 (stackSize - 1)) :=
  (inRange_add_ofNat (G.stack i) (by decide)).mpr (by decide)

/-- No part of a context is a part of `taskTop`. -/
theorem context_not_taskTop (hi : i < maxTask) {x : Addr}
    (hx : InRange (G.ctxTask i) contextSize x) : ¬ InRange G.taskTop 4 x :=
  (taskTop_apart_ctxTasks G).not_inRange ((contextsOf G).holds_of_entry hi hx)

end Tables

/-! ### One call -/

/-- A call of `task_create` has registered `task` in slot `i`, with `m`
before and `m'` after it. -/
structure Registered (G : TaskTables) (created : List Nat) (task : Addr) (i : Nat)
    (m m' : Mem) : Prop where
  lt : i < maxTask
  fresh : i ∉ created
  ra : load32 m' (G.ctxTask i) = task
  sp : InRange (G.stack i) stackSize (load32 m' (G.ctxTaskSp i))
  apart : ∀ j ∈ created, Apart (G.stack i) stackSize (G.stack j) stackSize
  frame : ∀ x, ¬ InRange G.taskTop 4 x → ¬ InRange (G.ctxTask i) contextSize x → m' x = m x

section Create

variable {G : TaskTables} {k : Nat} {m : Mem}

/-- The word of `taskTop` as a number. -/
theorem toNat_taskTop (hk : k ≤ maxTask) (htop : load32 m G.taskTop = BitVec.ofNat 32 k) :
    (load32 m G.taskTop).toNat = k := by
  rw [htop, BitVec.toNat_ofNat, Nat.mod_eq_of_lt]
  unfold maxTask at hk
  omega

/-- `task_create` with `k` tasks in the table. -/
theorem taskCreate_eq (hk : k ≤ maxTask) (htop : load32 m G.taskTop = BitVec.ofNat 32 k)
    (task : Addr) :
    G.taskCreate m task
      = (k, store32 (store32 (store32 m G.taskTop (BitVec.ofNat 32 (k + 1))) (G.ctxTask k) task)
          (G.ctxTaskSp k) (G.stack k + BitVec.ofNat 32 (stackSize - 1))) := by
  unfold TaskTables.taskCreate
  simp only [toNat_taskTop hk htop]
  rw [htop, ← BitVec.ofNat_add]

/-- With room in the table, `task_create` registers the task. -/
theorem taskCreate_registers (hk : k < maxTask) (htop : load32 m G.taskTop = BitVec.ofNat 32 k)
    (task : Addr) :
    Registered G (List.range k) task k m (G.taskCreate m task).2 ∧
      load32 (G.taskCreate m task).2 G.taskTop = BitVec.ofNat 32 (k + 1) := by
  -- The two stores to the context stay within it.
  have hra : ∀ x, InRange (G.ctxTask k) 4 x → InRange (G.ctxTask k) contextSize x :=
    fun x hx => hx.mono (by decide)
  have hsp : ∀ x, InRange (G.ctxTaskSp k) 4 x → InRange (G.ctxTask k) contextSize x :=
    fun x hx => inRange_of_add (by decide) (by decide) hx
  rw [taskCreate_eq (Nat.le_of_lt hk) htop]
  show Registered G (List.range k) task k m (store32 _ _ _) ∧ load32 (store32 _ _ _) _ = _
  refine ⟨⟨hk, by simp, ?_, ?_, ?_, ?_⟩, ?_⟩
  · rw [TaskTables.ctxTaskSp, load32_store32_next]
    exact load32_store32_same _ _ _
  · rw [load32_store32_same]
    exact inRange_stackTop G
  · intro j hj
    have hlt := List.mem_range.mp hj
    exact (stacksOf G).entry_apart_entry hk (Nat.lt_trans hlt hk) (Nat.ne_of_gt hlt)
  · intro x hxtop hxctx
    rw [store32_of_not_inRange _ _ fun hin => hxctx (hsp x hin),
      store32_of_not_inRange _ _ fun hin => hxctx (hra x hin), store32_of_not_inRange _ _ hxtop]
  · -- Neither store to the context goes to `taskTop`.
    rw [load32_store32_of_disjoint _ _ fun x hx hin => context_not_taskTop G hk (hsp x hin) hx,
      load32_store32_of_disjoint _ _ fun x hx hin => context_not_taskTop G hk (hra x hin) hx]
    exact load32_store32_same _ _ _

end Create

/-! ### Runs -/

/-- What the calls of one step should do. `task_create` registers the task
in a fresh slot of the table, or rejects it and changes nothing.
`task_go` gets a slot that `task_create` has returned. -/
def Behaves (G : TaskTables) (s : TaskState) (e : TaskEvent) (t : TaskState) : Prop :=
  match e with
  | .create task =>
      (∃ i, t.created = s.created ++ [i] ∧ Registered G s.created task i s.mem t.mem) ∨ t = s
  | .go i => i ∈ s.created
  | _ => True

/-- All steps of a run behave, and `taskTop` stays within the table. -/
def TableSafe (G : TaskTables) (s₀ : TaskState) (es : List TaskEvent) : Prop :=
  (∀ pre e post s t, es = pre ++ e :: post → (taskSystem G).Run s₀ pre s →
    (taskSystem G).step s e t → Behaves G s e t) ∧
  ∀ pre post s, es = pre ++ post → (taskSystem G).Run s₀ pre s →
    (load32 s.mem G.taskTop).toNat ≤ maxTask

/-- The calls of `task_create` in a run. -/
def creates (es : List TaskEvent) : Nat := es.countP fun e => e matches .create _

/-- A call that the tables have room for, after the calls of `pre`. -/
def HasRoom (pre : List TaskEvent) (e : TaskEvent) : Prop :=
  match e with
  | .create _ => creates pre < maxTask
  | .go _ => 0 < creates pre
  | _ => True

/-- All calls of a run are such. -/
def CallsFit (es : List TaskEvent) : Prop :=
  ∀ pre e post, es = pre ++ e :: post → HasRoom pre e

/-- One event more. -/
theorem creates_snoc (es : List TaskEvent) (e : TaskEvent) :
    creates (es ++ [e]) = creates es + if e matches .create _ then 1 else 0 := by
  rw [creates, List.countP_append, List.countP_singleton]
  rfl

/-- The calls up to the last event fit. -/
theorem CallsFit.init {es : List TaskEvent} {e : TaskEvent} (h : CallsFit (es ++ [e])) :
    CallsFit es := by
  intro pre f post hes
  exact h pre f (post ++ [e]) (by simp [hes])

/-- The last event has room. -/
theorem CallsFit.last {es : List TaskEvent} {e : TaskEvent} (h : CallsFit (es ++ [e])) :
    HasRoom es e :=
  h es e [] rfl

/-- What holds after `n` calls of `task_create` if all calls fit. -/
structure TableInv (G : TaskTables) (n : Nat) (s : TaskState) : Prop where
  le : n ≤ maxTask
  taskTop : load32 s.mem G.taskTop = BitVec.ofNat 32 n
  created : s.created = List.range n
  current : s.currentTask = 0 ∨ s.currentTask < n
  back : s.back = true → 0 < n

section Runs

variable {G : TaskTables} {s₀ s t : TaskState} {es : List TaskEvent} {e : TaskEvent} {n : Nat}

/-- Nothing is created yet. -/
theorem tableInv_init (h : (taskSystem G).init s) : TableInv G 0 s := by
  obtain ⟨htop, hcurrent, hback, hcreated⟩ := h
  refine ⟨Nat.zero_le _, htop, hcreated, Or.inl hcurrent, fun h => ?_⟩
  rw [hback] at h
  cases h

/-- `task_create` with a row to spare. -/
theorem TableInv.create (h : TableInv G n s) (hlt : n < maxTask) {task : Addr}
    (hstep : (taskSystem G).step s (.create task) t) :
    TableInv G (n + 1) t ∧ Behaves G s (.create task) t := by
  have hret : (G.taskCreate s.mem task).1 = n := by
    rw [taskCreate_eq h.le h.taskTop]
  obtain ⟨hreg, htop⟩ := taskCreate_registers hlt h.taskTop task
  rw [← h.created] at hreg
  obtain rfl : t = { s with mem := (G.taskCreate s.mem task).2
                            created := s.created ++ [(G.taskCreate s.mem task).1] } := hstep
  refine ⟨⟨hlt, htop, ?_, h.current.imp_right Nat.lt_succ_of_lt, fun _ => Nat.succ_pos n⟩, ?_⟩
  · rw [List.range_succ, ← h.created, hret]
  · exact Or.inl ⟨n, by rw [hret], hreg⟩

/-- `task_go`, which finds a task that was created. -/
theorem TableInv.go (h : TableInv G n s) (hpos : 0 < n) {i : Nat}
    (hstep : (taskSystem G).step s (.go i) t) : TableInv G n t ∧ i ∈ s.created := by
  obtain ⟨-, rfl, rfl⟩ := hstep
  have hlt : s.currentTask < n := h.current.elim (fun h0 => h0 ▸ hpos) id
  refine ⟨⟨h.le, h.taskTop, h.created, h.current, fun _ => hpos⟩, ?_⟩
  rw [h.created]
  exact List.mem_range.mpr hlt

/-- `os_main` goes on to the next task. -/
theorem TableInv.next (h : TableInv G n s) (hstep : (taskSystem G).step s .next t) :
    TableInv G n t := by
  obtain ⟨hback, rfl⟩ := hstep
  refine ⟨h.le, h.taskTop, h.created, Or.inr ?_, fun h => by cases h⟩
  show (s.currentTask + 1) % (load32 s.mem G.taskTop).toNat < n
  rw [toNat_taskTop h.le h.taskTop]
  exact Nat.mod_lt _ (h.back hback)

/-- The task that runs leaves the table alone. -/
theorem TableInv.work (h : TableInv G n s) {m : Mem}
    (hstep : (taskSystem G).step s (.work m) t) : TableInv G n t := by
  obtain ⟨htop, rfl⟩ := hstep
  exact ⟨h.le, htop.trans h.taskTop, h.created, h.current, h.back⟩

/-- One step of calls that fit behaves, and the invariant goes on. -/
theorem TableInv.step (h : TableInv G (creates es) s) (hroom : HasRoom es e)
    (hstep : (taskSystem G).step s e t) :
    TableInv G (creates (es ++ [e])) t ∧ Behaves G s e t := by
  rw [creates_snoc]
  cases e with
  | create task => exact h.create hroom hstep
  | go i => exact h.go hroom hstep
  | next => exact ⟨h.next hstep, trivial⟩
  | work m => exact ⟨h.work hstep, trivial⟩

/-- The invariant holds after each run of calls that fit. -/
theorem tableInv_run (h₀ : TableInv G 0 s₀) (hrun : (taskSystem G).Run s₀ es s)
    (hfit : CallsFit es) : TableInv G (creates es) s := by
  induction hrun with
  | nil => exact h₀
  | snoc _ hstep ih => exact ((ih hfit.init).step hfit.last hstep).1

/-- A call that the tables have no room for does not behave: slot
`MAX_TASK` is none of the table, and slot 0 was not returned yet. -/
theorem TableInv.hasRoom (h : TableInv G (creates es) s) (hstep : (taskSystem G).step s e t)
    (hok : Behaves G s e t) : HasRoom es e := by
  cases e with
  | create task =>
      -- The slot that is returned is the number of calls so far.
      have hcreated : t.created = s.created ++ [creates es] := by
        have hret : (G.taskCreate s.mem task).1 = creates es := by
          rw [taskCreate_eq h.le h.taskTop]
        obtain rfl : t = { s with mem := (G.taskCreate s.mem task).2
                                  created := s.created ++ [(G.taskCreate s.mem task).1] } := hstep
        rw [hret]
      rcases hok with ⟨i, hi, hreg⟩ | rfl
      · rw [hcreated] at hi
        have heq : creates es = i := by simpa using List.append_cancel_left hi
        rw [HasRoom, heq]
        exact hreg.lt
      · exact absurd (congrArg List.length hcreated) (by simp)
  | go i =>
      have hmem : i ∈ s.created := hok
      rw [h.created] at hmem
      exact Nat.zero_lt_of_lt (List.mem_range.mp hmem)
  | next => trivial
  | work m => trivial

/-- One event more, if it has room. -/
theorem callsFit_snoc (hfit : CallsFit es) (hroom : HasRoom es e) : CallsFit (es ++ [e]) := by
  intro pre f post hes
  rcases List.eq_nil_or_concat post with rfl | ⟨post', g, rfl⟩
  · obtain ⟨rfl, hlast⟩ := List.append_inj' hes rfl
    obtain rfl : e = f := by simpa using hlast
    exact hroom
  · have hes' : es ++ [e] = (pre ++ f :: post') ++ [g] := by simpa using hes
    exact hfit pre f post' (List.append_inj' hes' rfl).1

/-- Where the table is safe the calls fit. -/
theorem callsFit_of_safe (h₀ : TableInv G 0 s₀) (hrun : (taskSystem G).Run s₀ es s)
    (hsafe : TableSafe G s₀ es) : CallsFit es := by
  induction hrun with
  | nil =>
      intro pre e post hes
      exact absurd hes (by simp)
  | @snoc t u es e hrun hstep ih =>
      have hfit : CallsFit es := by
        refine ih ⟨?_, ?_⟩
        · intro pre f post s t hes hpre hst
          exact hsafe.1 pre f (post ++ [e]) s t (by simp [hes]) hpre hst
        · intro pre post s hes hpre
          exact hsafe.2 pre (post ++ [e]) s (by simp [hes]) hpre
      exact callsFit_snoc hfit
        ((tableInv_run h₀ hrun hfit).hasRoom hstep (hsafe.1 es e [] t u rfl hrun hstep))

/-- The first events of calls that fit. -/
theorem CallsFit.left {fs : List TaskEvent} (h : CallsFit (es ++ fs)) : CallsFit es := by
  intro pre e post hes
  exact h pre e (post ++ fs) (by simp [hes])

/-- Where the calls fit the table is safe. -/
theorem safe_of_callsFit (h₀ : TableInv G 0 s₀) (hfit : CallsFit es) : TableSafe G s₀ es := by
  constructor
  · intro pre e post s t hes hpre hstep
    rw [hes] at hfit
    exact ((tableInv_run h₀ hpre hfit.left).step (hfit pre e post rfl) hstep).2
  · intro pre post s hes hpre
    rw [hes] at hfit
    have hinv := tableInv_run h₀ hpre hfit.left
    rw [toNat_taskTop hinv.le hinv.taskTop]
    exact hinv.le

end Runs

/-- When task creation stays within its tables over a whole run: exactly
when each call of `task_create` has fewer than `MAX_TASK` before it, and
`os_main` goes to a task only after the first of them. -/
theorem taskTable_iff (G : TaskTables) {s₀ s : TaskState} {es : List TaskEvent}
    (hinit : (taskSystem G).init s₀) (hrun : (taskSystem G).Run s₀ es s) :
    TableSafe G s₀ es ↔ CallsFit es :=
  ⟨callsFit_of_safe (tableInv_init hinit) hrun, safe_of_callsFit (tableInv_init hinit)⟩

/-- Tables as a linker lays them out. -/
def sampleTables : TaskTables where
  ctxTasks := 0x80003040#32
  taskStack := 0x80004000#32
  taskTop := 0x80003600#32
  apart := by decide

/-- The kernel at boot. -/
def bootedTasks : TaskState := ⟨fun _ => 0#8, 0, false, []⟩

/-- `os_main` creates two tasks, as in `user_init`, and goes to the first. -/
theorem taskTable_iff_two :
    TableSafe sampleTables bootedTasks [.create 0x80000100#32, .create 0x80000200#32, .go 0] ↔
      CallsFit [.create 0x80000100#32, .create 0x80000200#32, .go 0] := by
  have hrun : (taskSystem sampleTables).Run bootedTasks
      ((([] ++ [.create 0x80000100#32]) ++ [.create 0x80000200#32]) ++ [.go 0]) _ :=
    (((System.Run.nil bootedTasks).snoc rfl).snoc rfl).snoc ⟨rfl, rfl, rfl⟩
  exact taskTable_iff sampleTables ⟨by decide, rfl, rfl, rfl⟩ hrun

/-- `n` calls of `task_create`. -/
def nCreates (n : Nat) : List TaskEvent := List.replicate n (.create 0x80000100#32)

/-- `task_create` can always be called. -/
theorem nCreates_run (G : TaskTables) (s₀ : TaskState) (n : Nat) :
    ∃ s, (taskSystem G).Run s₀ (nCreates n) s := by
  induction n with
  | zero => exact ⟨s₀, System.Run.nil s₀⟩
  | succ n ih =>
      obtain ⟨s, hrun⟩ := ih
      rw [nCreates, List.replicate_succ']
      exact ⟨_, hrun.snoc rfl⟩

/-- The number of calls. -/
theorem creates_nCreates (n : Nat) : creates (nCreates n) = n := by
  induction n with
  | zero => rfl
  | succ n ih =>
      rw [nCreates, List.replicate_succ']
      exact (creates_snoc _ _).trans (congrArg (· + 1) ih)

/-- Ten calls fit. -/
theorem callsFit_nCreates {n : Nat} (hn : n ≤ maxTask) : CallsFit (nCreates n) := by
  induction n with
  | zero =>
      intro pre e post hes
      exact absurd hes (by simp [nCreates])
  | succ n ih =>
      rw [nCreates, List.replicate_succ']
      refine callsFit_snoc (ih (Nat.le_of_succ_le hn)) ?_
      show creates (nCreates n) < maxTask
      rw [creates_nCreates]
      exact hn

/-- The eleventh call of `task_create` returns 10 and stores its task
behind `ctx_tasks`. -/
theorem eleventhTask_overflows :
    ∃ s t, (taskSystem sampleTables).Run bootedTasks (nCreates 10) s ∧
      (taskSystem sampleTables).step s (.create 0x80000100#32) t ∧
      t.created = s.created ++ [10] ∧
      load32 t.mem (sampleTables.ctxTask 10) = 0x80000100#32 ∧
      ¬ InRange sampleTables.ctxTasks (maxTask * contextSize) (sampleTables.ctxTask 10) ∧
      ¬ TableSafe sampleTables bootedTasks (nCreates 11) := by
  have h₀ : TableInv sampleTables 0 bootedTasks := tableInv_init ⟨by decide, rfl, rfl, rfl⟩
  obtain ⟨s, hrun⟩ := nCreates_run sampleTables bootedTasks 10
  have hinv := tableInv_run h₀ hrun (callsFit_nCreates (by decide))
  rw [creates_nCreates] at hinv
  have hcreate := taskCreate_eq hinv.le hinv.taskTop 0x80000100#32
  refine ⟨s, _, hrun, rfl, ?_, ?_, by decide, ?_⟩
  · rw [hcreate]
  · show load32 (sampleTables.taskCreate s.mem 0x80000100#32).2 (sampleTables.ctxTask 10) = _
    rw [hcreate]
    show load32 (store32 _ (sampleTables.ctxTaskSp 10) _) (sampleTables.ctxTask 10) = _
    rw [TaskTables.ctxTaskSp, load32_store32_next]
    exact load32_store32_same _ _ _
  · intro hsafe
    -- The eleventh call would have to find room.
    have hfit := callsFit_of_safe h₀ (nCreates_run sampleTables bootedTasks 11).choose_spec hsafe
    have hlast : HasRoom (nCreates 10) (.create 0x80000100#32) :=
      hfit (nCreates 10) (.create 0x80000100#32) [] rfl
    have hlt : creates (nCreates 10) < maxTask := hlast
    rw [creates_nCreates] at hlt
    exact absurd hlt (by decide)

end MiniRiscvOs.Proofs
