import MiniRiscvOs.Lib.Path
import MiniRiscvOs.Proofs.Spinlock

/-!
# `MiniRiscvOs.Proofs.SpinlockLive`: the lock is taken and given up for ever

`Proofs.Spinlock` says what the lock of `06-Spinlock` keeps out. This module says
that it lets tasks in, on every infinite run in which no task stops for good with
`lock_acquire` or its section under way (`spinlock_live`).

* The lock that is taken has a holder (`Taken`), and no other task can take it
  from the holder or give it up. So the steps of the holder lead to `lock_free`.
* While the lock is free, the steps of any task that wants it lead to its
  `amoswap`, unless another task is faster.

Which task is the next is left open: a task whose `amoswap` always comes too late
never gets the lock.
-/

set_option autoImplicit false

namespace MiniRiscvOs.Proofs

open MiniRiscvOs.Lib
open MiniRiscvOs.Kernel

variable {ι : Type} [DecidableEq ι]

/-- The tasks under the lock, one instruction of one task at a time. -/
def spinSystem (adds : ι → Bool) : System (Spin ι) ι :=
  System.ofStep (lockInit ι) (spinStep adds)

/-! ### One instruction -/

/-- The instruction after `pc`, with the words that `pc` may load. -/
def nextPc (adds : Bool) (locked sharedVar : Word) : SpinPc → SpinPc
  | .outside => .li
  | .li => .amoswap 1#32
  | .amoswap _ => .mv locked
  | .mv a5 => .ret a5
  | .ret a0 => .branch a0
  | .branch a0 => if a0 = 0#32 then (if adds then .load else .puts) else .li
  | .load => .add sharedVar
  | .add x => .store (x + 1#32)
  | .store _ | .puts => .unlock
  | .unlock => .outside

/-- The lock after `pc`. -/
def nextLocked (locked : Word) : SpinPc → Word
  | .amoswap a5 => a5
  | .unlock => 0#32
  | _ => locked

section Step

variable {adds : ι → Bool} {s : Spin ι} {t u : ι}

/-- Only the task that moves gets on. -/
theorem spinStep_pc : (spinStep adds s t).pc =
    Function.update s.pc t (nextPc (adds t) s.locked s.sharedVar (s.pc t)) := by
  unfold spinStep
  cases hpc : s.pc t with
  | branch a0 =>
      simp only [nextPc]
      split <;> rfl
  | _ => rfl

/-- The lock after a step. -/
theorem spinStep_locked : (spinStep adds s t).locked = nextLocked s.locked (s.pc t) := by
  unfold spinStep
  cases hpc : s.pc t with
  | branch a0 =>
      simp only
      split <;> rfl
  | _ => rfl

/-- The place of the task that moves. -/
theorem spinStep_pc_self : (spinStep adds s t).pc t =
    nextPc (adds t) s.locked s.sharedVar (s.pc t) := by
  rw [spinStep_pc, Function.update_self]

/-- The other tasks stay where they are. -/
theorem spinStep_pc_other (hut : u ≠ t) : (spinStep adds s t).pc u = s.pc u := by
  rw [spinStep_pc, Function.update_of_ne hut]

end Step

/-! ### The holder -/

/-- A lock that is taken has a holder. -/
def Taken (s : Spin ι) : Prop := s.locked ≠ 0#32 → ∃ u, SpinPc.Holds (s.pc u)

/-- The instructions of the holder up to and with `lock_free`. -/
def toUnlock : SpinPc → Nat
  | .mv _ => 7
  | .ret _ => 6
  | .branch _ => 5
  | .load => 4
  | .add _ => 3
  | .store _ | .puts => 2
  | .unlock => 1
  | .outside | .li | .amoswap _ => 0

/-- The instructions of a task up to its `amoswap`. A task past it has found the
lock taken, and tries again. -/
def toLock : SpinPc → Nat
  | .mv _ => 5
  | .ret _ => 4
  | .branch _ => 3
  | .li => 2
  | .amoswap _ => 1
  | .outside | .load | .add _ | .store _ | .puts | .unlock => 0

/-- Before `lock_free` a step of the holder leads nearer to it, and leaves the lock
taken. -/
theorem holds_next (adds : Bool) (locked sharedVar : Word) {pc : SpinPc} (h : SpinPc.Holds pc)
    (hpc : pc ≠ .unlock) :
    SpinPc.Holds (nextPc adds locked sharedVar pc) ∧ nextLocked locked pc = locked ∧
      toUnlock (nextPc adds locked sharedVar pc) < toUnlock pc := by
  cases pc with
  | outside | li | amoswap a5 => exact h.elim
  | unlock => exact absurd rfl hpc
  | branch a =>
      obtain rfl : a = 0#32 := h
      cases adds with
      | false => exact ⟨trivial, rfl, show 2 < 5 by decide⟩
      | true => exact ⟨trivial, rfl, show 4 < 5 by decide⟩
  | mv a | ret a => exact ⟨h, rfl, Nat.lt_succ_self _⟩
  | load | add x | store x | puts => exact ⟨trivial, rfl, Nat.lt_succ_self _⟩

/-- One who does not hold the lock changes it by its `amoswap` only. -/
theorem nextLocked_of_not_holds (locked : Word) {pc : SpinPc} (h : ¬ SpinPc.Holds pc) :
    nextLocked locked pc = locked ∨ ∃ a5, pc = .amoswap a5 ∧ nextLocked locked pc = a5 := by
  cases pc with
  | amoswap a5 => exact Or.inr ⟨a5, rfl, rfl⟩
  | unlock => exact absurd trivial h
  | _ => exact Or.inl rfl

section Runs

variable {adds : ι → Bool} {s : Spin ι} {t u : ι}

/-- A lock that is taken has a holder after each step. -/
theorem Taken.step (h : Taken s) (t : ι) : Taken (spinStep adds s t) := by
  intro hlocked
  rw [spinStep_locked] at hlocked
  -- The task itself holds the lock, and keeps it short of the unlock.
  by_cases hself : SpinPc.Holds (s.pc t)
  · have hpc : s.pc t ≠ .unlock := by
      intro hpc
      rw [hpc] at hlocked
      exact hlocked rfl
    refine ⟨t, ?_⟩
    rw [spinStep_pc_self]
    exact (holds_next _ _ _ hself hpc).1
  · by_cases hfree : s.locked = 0#32
    · -- The task has found the lock free, and holds it now.
      rcases nextLocked_of_not_holds s.locked hself with hsame | ⟨a5, hpc, -⟩
      · exact absurd (hsame.trans hfree) hlocked
      · refine ⟨t, ?_⟩
        rw [spinStep_pc_self, hpc, hfree]
        rfl
    · -- Another task holds it and does not move.
      obtain ⟨u, hu⟩ := h hfree
      have hut : u ≠ t := fun hut => hself (hut ▸ hu)
      exact ⟨u, by rwa [spinStep_pc_other hut]⟩

/-- Both invariants hold in every reachable state. -/
theorem spin_invariant (h : (spinSystem adds).Reachable s) : SpinInv s ∧ Taken s := by
  refine System.invariant (M := spinSystem adds) (I := fun s => SpinInv s ∧ Taken s) ?_ ?_ h
  · rintro s rfl
    exact ⟨spinInv_lockInit, fun hlocked => absurd rfl hlocked⟩
  · rintro s t u ⟨hinv, htaken⟩ rfl
    exact ⟨hinv.step adds t, htaken.step t⟩

end Runs

/-! ### Infinite runs -/

section Paths

variable {adds : ι → Bool} {P : (spinSystem adds).Path}

/-- The task does not stop with `lock_acquire` or its section under way. -/
def KeepsOn (P : (spinSystem adds).Path) (t : ι) : Prop :=
  P.Fair (fun _ e => e = t) fun s => s.pc t ≠ .outside

/-- The holder gets to its `lock_free`. -/
theorem holder_leadsTo_unlock (h₀ : (spinSystem adds).Reachable (P.state 0))
    (hfair : ∀ t, KeepsOn P t) (u : ι) :
    P.LeadsTo (fun s => SpinPc.Holds (s.pc u)) fun s => s.pc u = .unlock := by
  refine System.Path.leadsTo_of_measure h₀ (fun s => toUnlock (s.pc u)) (fun _ => u) hfair ?_ ?_
  · intro s hholds _ hpc
    rw [hpc] at hholds
    exact hholds
  · rintro s t _ hs hholds hpc rfl
    right
    by_cases hut : u = t
    · subst hut
      obtain ⟨hnext, -, hlt⟩ := holds_next (adds u) s.locked s.sharedVar hholds hpc
      rw [spinStep_pc_self]
      exact ⟨hnext, Or.inl hlt⟩
    · rw [spinStep_pc_other hut]
      exact ⟨hholds, Or.inr ⟨rfl, rfl, fun h => hut h.symm⟩⟩

/-- And gives the lock up. -/
theorem unlock_leadsTo_free (h₀ : (spinSystem adds).Reachable (P.state 0))
    (hfair : ∀ t, KeepsOn P t) (u : ι) :
    P.LeadsTo (fun s => s.pc u = .unlock) fun s => s.locked = 0#32 := by
  refine System.Path.leadsTo_of_agent h₀ (hfair u) ?_ ?_
  · intro s hpc _
    rw [hpc]
    nofun
  · rintro s t _ hs hpc hlocked rfl
    by_cases hut : u = t
    · subst hut
      rw [spinStep_locked, hpc]
      exact Or.inl rfl
    · rw [spinStep_pc_other hut]
      exact Or.inr ⟨hpc, fun h => hut h.symm⟩

/-- While the lock is free, a task that wants it gets nearer to it with each step. -/
theorem wanting_next (adds : Bool) (sharedVar : Word) {pc : SpinPc} (hout : pc ≠ .outside)
    (hnot : ¬ SpinPc.Holds pc) :
    SpinPc.Holds (nextPc adds 0#32 sharedVar pc) ∨
      (nextPc adds 0#32 sharedVar pc ≠ .outside ∧
        toLock (nextPc adds 0#32 sharedVar pc) < toLock pc) := by
  cases pc with
  | outside => exact absurd rfl hout
  | amoswap a5 => exact Or.inl rfl
  | li | mv a | ret a => exact Or.inr ⟨nofun, Nat.lt_succ_self _⟩
  | branch a =>
      have ha : a ≠ 0#32 := hnot
      rw [nextPc, if_neg ha]
      exact Or.inr ⟨nofun, Nat.lt_succ_self _⟩
  | load | add x | store x | puts | unlock => exact absurd trivial hnot

/-- If a task wants the lock, some task gets it. -/
theorem wanting_leadsTo_holder (h₀ : (spinSystem adds).Reachable (P.state 0))
    (hfair : ∀ t, KeepsOn P t) (t : ι) :
    P.LeadsTo (fun s => s.pc t ≠ .outside) fun s => ∃ u, SpinPc.Holds (s.pc u) := by
  refine System.Path.leadsTo_of_measure h₀ (fun s => toLock (s.pc t)) (fun _ => t) hfair
    (fun _ hout _ => hout) ?_
  rintro s e _ hs hout hnone rfl
  have hfree : s.locked = 0#32 := by
    by_contra hlocked
    exact hnone ((spin_invariant hs).2 hlocked)
  by_cases hte : t = e
  · subst hte
    rcases wanting_next (adds t) s.sharedVar hout fun h => hnone ⟨t, h⟩ with
      hholds | ⟨hnext, hlt⟩
    · exact Or.inl ⟨t, by rwa [spinStep_pc_self, hfree]⟩
    · rw [spinStep_pc_self, hfree]
      exact Or.inr ⟨hnext, Or.inl hlt⟩
  · rw [spinStep_pc_other hte]
    exact Or.inr ⟨hout, Or.inr ⟨rfl, rfl, fun h => hte h.symm⟩⟩

end Paths

/-- The lock of `06-Spinlock` is taken and given up for ever. On every infinite run
in which no task stops for good between its `lock_acquire` and its `lock_free`:
whenever a task is there, then or later some task is in its section, and again and
again the lock is free. -/
theorem spinlock_live {adds : ι → Bool} (P : (spinSystem adds).Path)
    (h₀ : (spinSystem adds).Reachable (P.state 0)) (hfair : ∀ t, KeepsOn P t) (n : Nat) :
    ((∃ t, (P.state n).pc t ≠ .outside) →
      ∃ m, n ≤ m ∧ ∃ u, ((P.state m).pc u).InSection) ∧
    ∃ m, n ≤ m ∧ (P.state m).locked = 0#32 := by
  constructor
  · rintro ⟨t, ht⟩
    obtain ⟨m, hnm, u, hu⟩ := wanting_leadsTo_holder h₀ hfair t n ht
    obtain ⟨k, hmk, hpc⟩ := holder_leadsTo_unlock h₀ hfair u m hu
    exact ⟨k, Nat.le_trans hnm hmk, u, by rw [hpc]; trivial⟩
  · by_cases hfree : (P.state n).locked = 0#32
    · exact ⟨n, Nat.le_refl n, hfree⟩
    · obtain ⟨u, hu⟩ := (spin_invariant (P.reachable h₀ n)).2 hfree
      exact (holder_leadsTo_unlock h₀ hfair u).trans (unlock_leadsTo_free h₀ hfair u) n hu

/-- Two tasks that step in turn, for ever. -/
theorem twoTasks_live : ∃ P : (spinSystem fun b : Bool => b).Path,
    (∀ n, P.label n = decide (n % 2 = 1)) ∧ (P.state 3).pc true ≠ .outside ∧
      ((∃ t, (P.state 3).pc t ≠ .outside) →
        ∃ m, 3 ≤ m ∧ ∃ u, ((P.state m).pc u).InSection) ∧
      ∃ m, 3 ≤ m ∧ (P.state m).locked = 0#32 := by
  refine ⟨.ofLabels (lockInit Bool) _ fun n => decide (n % 2 = 1), fun _ => rfl, by decide, ?_⟩
  have h₀ : (spinSystem fun b : Bool => b).Reachable (lockInit Bool) :=
    System.Reachable.of_init rfl
  refine spinlock_live _ h₀ (fun t n => ?_) 3
  refine ⟨2 * n + t.toNat, by omega, Or.inl ?_⟩
  show decide ((2 * n + t.toNat) % 2 = 1) = t
  cases t <;> simp

end MiniRiscvOs.Proofs
