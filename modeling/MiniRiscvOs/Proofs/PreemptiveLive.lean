import MiniRiscvOs.Lib.Path
import MiniRiscvOs.Proofs.Preemptive

/-!
# `MiniRiscvOs.Proofs.PreemptiveLive`: every task has turns for ever

On an infinite run of the machine of `Kernel.Preemptive` in which the hart does
not stay for good in one turn, nor in the code of `os_main` around its calls, each
task is activated again and again (`preemptive_live`). A turn ends when its task
calls `os_kernel`, or with the interrupt of the timer, and each of these needs room
on the task's stack.

So code of a task that the timer interrupts goes on later, on every such run.
-/

set_option autoImplicit false

namespace MiniRiscvOs.Proofs

open MiniRiscvOs.Lib
open MiniRiscvOs.Kernel.SystemCall
open MiniRiscvOs.Kernel.MultiTasking (Control Machine)

/-- The event is a switch of control, or leads to the next one. -/
def Moves : SchedEvent → Prop
  | .activate _ _ _ | .leave _ _ _ _ _ | .next => True
  | .work | .csrw | .trap _ _ => False

section Live

variable {G : KernelGlobals} {C : KernelCode G} {U : TaskInit G} {s t : Machine} {e : SchedEvent}

/-- A step that is no move leaves the turn as it is. -/
theorem sameTurn_of_not_moves (hstep : schedStep C s e t) (h : ¬ Moves e) :
    t.control = s.control ∧ t.currentTask = s.currentTask := by
  cases e with
  | work => exact hstep.2.2
  | csrw => exact hstep.2
  | trap cause l =>
      obtain ⟨-, rfl⟩ := hstep
      exact ⟨rfl, rfl⟩
  | activate _ _ _ | leave _ _ _ _ _ | next => exact absurd trivial h

/-- Short of the turn of task `i` a move leads nearer to it. -/
theorem turnRank_of_moves {i : Nat} (hi : i < U.tasks.length)
    (hs : (schedMachine C U).Reachable s) (hstep : schedStep C s e t) (h : Moves e)
    (hgoal : ¬ (s.control = .osMain ∧ s.currentTask = i)) :
    turnRank U.tasks.length i t < turnRank U.tasks.length i s := by
  obtain ⟨c, hc⟩ := scheduled_reachable hs
  cases e with
  | work | csrw | trap cause l => exact h.elim
  -- The turn of another task comes first, and brings this one nearer by one.
  | activate j saved entered =>
      obtain ⟨hcontrol, rfl, -, -, rfl⟩ := hstep
      have hne : s.currentTask ≠ i := fun h => hgoal ⟨hcontrol, h⟩
      have hfewer := turnsBefore_succ hi hc.current hne
      rw [turnRank_task rfl, turnRank_osMain hcontrol]
      show 3 * turnsBefore U.tasks.length i ((s.currentTask + 1) % U.tasks.length) + 2 < _
      omega
  | leave j way task saved entered =>
      obtain ⟨hcontrol, -, -, -, -, rfl⟩ := hstep
      rw [turnRank_back rfl, turnRank_task hcontrol]
      exact Nat.lt_succ_self _
  | next =>
      obtain ⟨hcontrol, rfl⟩ := hstep
      rw [turnRank_osMain rfl, turnRank_back hcontrol, hc.toNat_taskTop]
      exact Nat.lt_succ_self _

/-- The hart does not stay for good in a turn or in `os_main`. -/
def KeepsMoving (P : (schedMachine C U).Path) : Prop := P.Fair (fun _ e => Moves e) fun _ => True

/-- No task is left out. On every infinite run in which turns do not last for ever,
and `os_main` gets from each call to the next one, each task is activated again and
again, whatever system calls and other traps do and whatever tasks do in their own
memory. -/
theorem preemptive_live {G : KernelGlobals} {C : KernelCode G} {U : TaskInit G}
    (P : (schedMachine C U).Path) (h₀ : (schedMachine C U).Reachable (P.state 0))
    (hfair : KeepsMoving P) {i : Nat} (hi : i < U.tasks.length) (n : Nat) :
    ∃ m saved entered, n ≤ m ∧ P.label m = .activate i saved entered := by
  have hturn : P.LeadsTo (fun _ => True) fun s => s.control = .osMain ∧ s.currentTask = i := by
    refine System.Path.leadsTo_of_measure h₀ (turnRank U.tasks.length i) (fun _ => ())
      (fun _ => hfair) (fun _ _ _ => trivial) ?_
    intro s e t hs _ hgoal hstep
    refine Or.inr ⟨trivial, ?_⟩
    by_cases he : Moves e
    · exact Or.inl (turnRank_of_moves hi hs hstep he hgoal)
    · obtain ⟨hcontrol, hcurrent⟩ := sameTurn_of_not_moves hstep he
      refine Or.inr ⟨?_, rfl, he⟩
      rw [turnRank, turnRank, nextTurn, nextTurn, hcontrol, hcurrent]
  obtain ⟨k, hnk, hk⟩ := hturn n trivial
  -- The next move is the call of `task_go(i)`.
  have hkeeps : ∀ s e t, (schedMachine C U).Reachable s →
      s.control = .osMain ∧ s.currentTask = i → (schedMachine C U).step s e t →
      Moves e ∨ (t.control = .osMain ∧ t.currentTask = i) := by
    rintro s e t - ⟨hcontrol, hcurrent⟩ hstep
    by_cases he : Moves e
    · exact Or.inl he
    · obtain ⟨hcontrol', hcurrent'⟩ := sameTurn_of_not_moves hstep he
      exact Or.inr ⟨hcontrol'.trans hcontrol, hcurrent'.trans hcurrent⟩
  obtain ⟨m, hkm, ⟨hcontrol, hcurrent⟩, hmoves⟩ :=
    System.Path.exists_act (p := fun s => s.control = .osMain ∧ s.currentTask = i) h₀ hfair
      (fun _ _ => trivial) hkeeps hk
  have hstep : schedStep C (P.state m) (P.label m) (P.state (m + 1)) := P.steps m
  cases he : P.label m with
  | work | csrw | trap cause l =>
      rw [he] at hmoves
      exact hmoves.elim
  | leave j way task saved entered =>
      rw [he] at hstep
      cases hcontrol.symm.trans hstep.1
  | next =>
      rw [he] at hstep
      cases hcontrol.symm.trans hstep.1
  | activate j saved entered =>
      rw [he] at hstep
      obtain ⟨-, rfl, -⟩ := hstep
      exact ⟨m, saved, entered, Nat.le_trans hnk hkm, he.trans (by rw [hcurrent])⟩

/-- Where `os_kernel` and `task_os` have no frames of their own, the machine can always
move without a step of a task, and no stack loses room. -/
theorem can_move (hsp : ∀ h, (C.call h).reg .sp = h.reg .sp)
    (h : (∃ c, Scheduled G U.tasks.length s c) ∧
      Interruptible C U.tasks.length (fun _ => True) s) :
    ∃ e t, Moves e ∧ (schedMachine C U).step s e t ∧ (∃ c, Scheduled G U.tasks.length t c) ∧
      Interruptible C U.tasks.length (fun _ => True) t := by
  obtain ⟨⟨c, hc⟩, hcan⟩ := h
  -- The timer's interrupt is enough to end a turn.
  cases hcontrol : s.control with
  | osMain =>
      obtain ⟨saved, entered, t, hstep, -⟩ := can_activate C hcontrol
      obtain ⟨d, -, hd⟩ := hc.activate (k := c.cont) hstep
      exact ⟨.activate s.currentTask saved entered, t, trivial, hstep, ⟨d, hd⟩,
        hcan.activate hc hstep⟩
  | task j =>
      obtain ⟨rfl, hnow, -⟩ := hc.task j hcontrol
      have hroom := hcan.room s.currentTask hc.current trivial
      rw [spOf, if_pos (by rw [hcontrol]; rfl)] at hroom
      obtain ⟨saved, entered, t, hstep, -⟩ :=
        can_interrupt C hcontrol hcan.armed hroom sampleLeftover
      obtain ⟨d, -, hd⟩ := hc.leave (k := c.cont) hstep
      refine ⟨.leave s.currentTask (.timer sampleLeftover) s.hart saved entered, t, trivial, hstep,
        ⟨d, hd⟩, armed_step hc hstep (by simp) hcan.armed, fun k hk _ => ?_⟩
      by_cases hk' : k = s.currentTask
      · -- The context gets the `sp` that the task has been interrupted with.
        subst hk'
        obtain ⟨-, -, hleave, rfl, rfl, rfl⟩ := hstep
        have hleft := (parted_of_leave hc.lt_maxTask hc.mscratch hnow hleave).left
        rw [spOf, if_neg (by simp [Control.who]), savedSp_of_kept hleft]
        rwa [KernelCode.atSwitch, hsp, (atOsKernel_spares _ hc.mscratch).2 .sp (by decide)]
      · exact (hcan.leave hc hstep).room k hk ⟨trivial, hk'⟩
  | back =>
      obtain ⟨t, hstep, -⟩ := can_next C hc hcontrol
      exact ⟨.next, t, trivial, hstep, ⟨c, hc.next_step hstep⟩, hcan.next hc hstep⟩

end Live

/-- The two tasks that never yield. -/
theorem sampleScheduler_live : ∃ P : (schedMachine sampleCode sampleTasks).Path,
    P.state 0 = sampleScheduler ∧
      ∀ n, ∃ m saved entered, n ≤ m ∧ P.label m = .activate 1 saved entered := by
  have hreach : (schedMachine sampleCode sampleTasks).Reachable sampleScheduler :=
    System.Reachable.of_init sampleScheduler_init
  obtain ⟨P, hP, hmoves⟩ := System.Path.exists_path
    (fun s hs => can_move (C := sampleCode) (U := sampleTasks) (fun _ => rfl) hs)
    ⟨scheduled_reachable hreach, sampleScheduler_init.2.2.1,
      fun j hj _ => sampleScheduler_room j hj⟩
  refine ⟨P, hP, fun n => preemptive_live P (hP ▸ hreach) (fun k => ?_) (by decide) n⟩
  exact ⟨k, Nat.le_refl k, Or.inl (hmoves k)⟩

end MiniRiscvOs.Proofs
