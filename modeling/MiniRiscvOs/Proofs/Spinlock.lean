import MiniRiscvOs.Kernel.Spinlock
import MiniRiscvOs.Lib.System

/-!
# `MiniRiscvOs.Proofs.Spinlock`: mutual exclusion and no lost update

Any number of tasks run the lock of `06-Spinlock` in any interleaving of
their instructions. At most one of them is in its section, and
`shared_var` counts the completed increments whenever none is
(`spinlock_safe`).

The lock is taken in the middle of `atomic_swap`, not when `lock_acquire`
returns. So the invariant `SpinInv` speaks of the holder (`Holds`): a task
past an `amoswap` that read `0`, up to its `lock_free`. A failed `amoswap`
writes `1` over a word that is not `0`, which no test of the word can see.
`LocalOk` ties the registers of the section to the memory. Only the holder
is in a section, so no other task can write `shared_var` in between.
-/

set_option autoImplicit false

namespace MiniRiscvOs.Proofs

open MiniRiscvOs.Lib
open MiniRiscvOs.Kernel

variable {ι : Type} [DecidableEq ι]

/-- The task owns the lock: its `amoswap` read `0`, and its `lock_free` is
still to come. -/
def SpinPc.Holds : SpinPc → Prop
  | .mv a | .ret a | .branch a => a = 0#32
  | .load | .add _ | .store _ | .puts | .unlock => True
  | _ => False

/-- The register of a task agrees with the memory it was computed from. -/
def SpinPc.LocalOk (sharedVar : Word) : SpinPc → Prop
  | .amoswap a5 => a5 = 1#32
  | .add x => x = sharedVar
  | .store x => x = sharedVar + 1#32
  | _ => True

/-- In the section the lock is held. -/
theorem SpinPc.holds_of_inSection {pc : SpinPc} (h : pc.InSection) : SpinPc.Holds pc := by
  cases pc <;> first | exact trivial | exact h.elim

/-- The invariant of the lock. -/
structure SpinInv (s : Spin ι) : Prop where
  unique : ∀ t u, SpinPc.Holds (s.pc t) → SpinPc.Holds (s.pc u) → t = u
  locked : ∀ t, SpinPc.Holds (s.pc t) → s.locked ≠ 0#32
  localOk : ∀ t, SpinPc.LocalOk s.sharedVar (s.pc t)
  count : s.sharedVar = 500#32 + BitVec.ofNat 32 s.increments

omit [DecidableEq ι] in
/-- The invariant holds after `lock_init`. -/
theorem spinInv_lockInit : SpinInv (lockInit ι) where
  unique _ _ h := h.elim
  locked _ h := h.elim
  localOk _ := trivial
  count := rfl

namespace SpinInv

variable {s : Spin ι} {t : ι}

/-- A task that moves on without memory access, and does not start to hold
the lock by it. -/
theorem goto (hinv : SpinInv s) {pc : SpinPc}
    (hholds : SpinPc.Holds pc → SpinPc.Holds (s.pc t))
    (hlocal : SpinPc.LocalOk s.sharedVar pc) : SpinInv (s.goto t pc) := by
  have hback : ∀ u, SpinPc.Holds ((s.goto t pc).pc u) → SpinPc.Holds (s.pc u) := by
    intro u hu
    by_cases hut : u = t
    · subst hut
      simp only [Spin.goto, Function.update_self] at hu
      exact hholds hu
    · simpa only [Spin.goto, Function.update_of_ne hut] using hu
  refine ⟨fun u v hu hv => hinv.unique u v (hback u hu) (hback v hv),
    fun u hu => hinv.locked u (hback u hu), fun u => ?_, hinv.count⟩
  by_cases hut : u = t
  · subst hut
    simpa only [Spin.goto, Function.update_self] using hlocal
  · simpa only [Spin.goto, Function.update_of_ne hut] using hinv.localOk u

/-- The `amoswap`. It finds the lock free and its task becomes the holder,
or it finds the lock taken and leaves it taken. -/
theorem amoswap (hinv : SpinInv s) {a5 : Word} (hpc : s.pc t = .amoswap a5) :
    SpinInv { s.goto t (.mv s.locked) with locked := a5 } := by
  have ha5 : a5 = 1#32 := by
    have := hinv.localOk t
    rwa [hpc] at this
  subst ha5
  have hother : ∀ u, u ≠ t → (s.goto t (.mv s.locked)).pc u = s.pc u :=
    fun u hu => Function.update_of_ne hu ..
  have hself : (s.goto t (.mv s.locked)).pc t = .mv s.locked := Function.update_self ..
  -- Were another task the holder, the word would not read `0`.
  have honly : ∀ u, SpinPc.Holds ((s.goto t (.mv s.locked)).pc u) →
      s.locked = 0#32 → u = t := by
    intro u hu hfree
    by_contra hut
    rw [hother u hut] at hu
    exact hinv.locked u hu hfree
  have htaken : (1#32 : Word) ≠ 0#32 := by decide
  refine ⟨fun u v hu hv => ?_, fun _ _ => htaken, fun u => ?_, hinv.count⟩
  -- Taken before, it is taken by who held it, and `t` does not.
  · by_cases hfree : s.locked = 0#32
    · exact (honly u hu hfree).trans (honly v hv hfree).symm
    · have hne : ∀ w, SpinPc.Holds ((s.goto t (.mv s.locked)).pc w) → w ≠ t := by
        rintro w hw rfl
        rw [hself] at hw
        exact hfree hw
      have hu' := hne u hu
      have hv' := hne v hv
      simp only [hother u hu'] at hu
      simp only [hother v hv'] at hv
      exact hinv.unique u v hu hv
  · by_cases hut : u = t
    · subst hut
      show SpinPc.LocalOk s.sharedVar ((s.goto u (.mv s.locked)).pc u)
      rw [hself]
      trivial
    · show SpinPc.LocalOk s.sharedVar ((s.goto t (.mv s.locked)).pc u)
      rw [hother u hut]
      exact hinv.localOk u

/-- The store of `shared_var++`. The value was computed from the memory as
it still is, and no other task has a copy of `shared_var`. -/
theorem store (hinv : SpinInv s) {x : Word} (hpc : s.pc t = .store x) :
    SpinInv { s.goto t .unlock with sharedVar := x, increments := s.increments + 1 } := by
  have hx : x = s.sharedVar + 1#32 := by
    have := hinv.localOk t
    rwa [hpc] at this
  have hself : SpinPc.Holds (s.pc t) := by
    rw [hpc]
    trivial
  have hgoto := hinv.goto (t := t) (fun (_ : SpinPc.Holds .unlock) => hself) trivial
  refine ⟨hgoto.unique, hgoto.locked, fun u => ?_, ?_⟩
  · show SpinPc.LocalOk x ((s.goto t .unlock).pc u)
    by_cases hut : u = t
    · subst hut
      simp only [Spin.goto, Function.update_self]
      trivial
    · simp only [Spin.goto, Function.update_of_ne hut]
      have hu := hinv.localOk u
      have hnot : ¬ SpinPc.Holds (s.pc u) := fun h => hut (hinv.unique u t h hself)
      -- Outside a section the register says nothing about `shared_var`.
      cases hpu : s.pc u with
      | amoswap a5 => rwa [hpu] at hu
      | add y => exact absurd (by rw [hpu]; trivial) hnot
      | store y => exact absurd (by rw [hpu]; trivial) hnot
      | outside | li | mv | ret | branch | load | puts | unlock => trivial
  · show x = 500#32 + BitVec.ofNat 32 (s.increments + 1)
    rw [hx, hinv.count, BitVec.ofNat_add, BitVec.add_assoc]

/-- The store of `lock_free`. The only holder gives the lock up. -/
theorem unlock (hinv : SpinInv s) (hpc : s.pc t = .unlock) :
    SpinInv { s.goto t .outside with locked := 0#32 } := by
  have hself : SpinPc.Holds (s.pc t) := by
    rw [hpc]
    trivial
  have hnone : ∀ u, ¬ SpinPc.Holds ((s.goto t .outside).pc u) := by
    intro u hu
    by_cases hut : u = t
    · subst hut
      simp only [Spin.goto, Function.update_self] at hu
      exact hu
    · simp only [Spin.goto, Function.update_of_ne hut] at hu
      exact hut (hinv.unique u t hu hself)
  have hgoto := hinv.goto (t := t) (fun (h : SpinPc.Holds .outside) => h.elim) trivial
  exact ⟨fun u _ hu => (hnone u hu).elim, fun u hu => (hnone u hu).elim, hgoto.localOk,
    hgoto.count⟩

/-- One instruction of one task keeps the invariant. One case for each
program point. -/
theorem step (hinv : SpinInv s) (adds : ι → Bool) (t : ι) : SpinInv (spinStep adds s t) := by
  unfold spinStep
  cases hpc : s.pc t with
  | outside => exact hinv.goto (fun h => h.elim) trivial
  | li => exact hinv.goto (fun h => h.elim) rfl
  | amoswap a5 => exact hinv.amoswap hpc
  -- From here on the value `amoswap` read decides who holds the lock.
  | mv a5 => exact hinv.goto (fun h => by rw [hpc]; exact h) trivial
  | ret a0 => exact hinv.goto (fun h => by rw [hpc]; exact h) trivial
  | branch a0 =>
      show SpinInv (if a0 = 0#32 then s.goto t (if adds t then .load else .puts)
        else s.goto t .li)
      split
      · rename_i hzero
        refine hinv.goto (fun _ => by rw [hpc]; exact hzero) ?_
        split <;> trivial
      · exact hinv.goto (fun h => h.elim) trivial
  | load => exact hinv.goto (fun _ => by rw [hpc]; trivial) rfl
  | add x =>
      have hx : x = s.sharedVar := by
        have := hinv.localOk t
        rwa [hpc] at this
      exact hinv.goto (fun _ => by rw [hpc]; trivial) (congrArg (· + 1#32) hx)
  | store x => exact hinv.store hpc
  | puts => exact hinv.goto (fun _ => by rw [hpc]; trivial) trivial
  | unlock => exact hinv.unlock hpc

end SpinInv

/-- The invariant holds after every interleaving. -/
theorem spinInv_run (adds : ι → Bool) (schedule : List ι) :
    SpinInv (spinRun adds schedule) := by
  refine System.invariant ?_ ?_ (System.ofStep_reachable (lockInit ι) (spinStep adds) schedule)
  · rintro s rfl
    exact spinInv_lockInit
  · rintro s t u hinv rfl
    exact hinv.step adds t

/-- The spinlock of `06-Spinlock`, for any tasks and any interleaving of
their instructions. No two tasks are in their sections at once, and when no
task is, `shared_var` is `500` plus the number of completed increments. -/
theorem spinlock_safe (adds : ι → Bool) (schedule : List ι) :
    (∀ t u, ((spinRun adds schedule).pc t).InSection →
      ((spinRun adds schedule).pc u).InSection → t = u) ∧
    ((∀ t, ¬ ((spinRun adds schedule).pc t).InSection) →
      (spinRun adds schedule).sharedVar
        = 500#32 + BitVec.ofNat 32 (spinRun adds schedule).increments) := by
  have hinv := spinInv_run adds schedule
  refine ⟨fun t u ht hu => ?_, fun _ => hinv.count⟩
  exact hinv.unique t u (SpinPc.holds_of_inSection ht) (SpinPc.holds_of_inSection hu)

/-- Two tasks step in turn. The second spins while the first is between its
load and its store, then the first finishes. -/
example : (spinRun (fun _ : Bool => true)
    [false, true, false, true, false, true, false, true, false, true, false, true, false, true,
      false, false]).sharedVar = 501#32 := by
  decide

end MiniRiscvOs.Proofs
