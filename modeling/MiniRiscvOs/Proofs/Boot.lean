import MiniRiscvOs.Kernel.Boot
import MiniRiscvOs.Proofs.Trap

/-!
# `MiniRiscvOs.Proofs.Boot`: when a trap can save its state

There are two defects. `plic_init` enables the external interrupt and sets
`mstatus.MIE`, and only later does `timer_init` give `mscratch` its value. In
between an interrupt finds `mscratch` as it was at reset, and `trap_vector`
stores the registers there (`not_ready_of_reset`). And the row of
`timer_scratch` that a hart has is 20 bytes, where `trap_vector` stores words
up to offset 124: the sixth store is in the row of another hart
(`stores_leave_row`). So no kernel is ready for a trap throughout
(`boot_ready`).

Up to the size of the row, the window is the only way to go wrong. If
`mscratch` happens to hold the address of the row at reset, then every
reachable state finds it there, and the stores stay in the 128 bytes from
there on (`bootInv_reachable`).
-/

set_option autoImplicit false

namespace MiniRiscvOs.Proofs

open MiniRiscvOs.Lib
open MiniRiscvOs.Kernel.SystemCall

/-! ### What a trap needs -/

/-- An interrupt that can be taken finds `trap_vector` and the save area,
`trap_vector` stores in the `size` bytes of that area and nowhere else, and it
leaves `mscratch` at the save area when it returns. -/
structure TrapReady (E : BootEnv) (size : Nat) (s : BootState) : Prop where
  take : ∀ i, CanTake s.hart i →
    s.hart.csr .mtvec = E.trapVector ∧ s.hart.csr .mscratch = E.timerScratch
  stores : ∀ i is todo, s.place = .entry (i :: is) todo →
    ∀ a, i.storeAddr s.hart = some a → ∀ x, InRange a 4 x → InRange E.timerScratch size x
  returns : ∀ todo, s.place = .exit [] todo → s.hart.mret.csr .mscratch = E.timerScratch

/-! ### The invariant -/

/-- In `trap_vector`, with `is` still to come. Interrupts are disabled, and
at the end `mscratch` will hold the save area. -/
structure InTrap (E : BootEnv) (is : List Instr) (todo : List BootOp) (h : Hart) : Prop where
  todo : todo <:+ (osStart E).tail
  mtvec : h.csr .mtvec = E.trapVector
  off : h.csr .mstatus &&& statusMie = 0#32
  quiet : ∀ i ∈ is, i.csrDst ≠ some .mstatus ∧ i.csrDst ≠ some .mtvec
  mscratch : (h.run is).csr .mscratch = E.timerScratch

/-- What the stores of `trap_vector` need: `t6` holds the save area, or the
swap that is to come will put it there. -/
def BaseReady (E : BootEnv) (is : List Instr) (h : Hart) : Prop :=
  (is = trapEntry ∧ h.csr .mscratch = E.timerScratch) ∨
    (h.reg .t6 = E.timerScratch ∧
      ∀ i ∈ is, i.storesIn .t6 saveAreaSize = true ∧ i.regDst ≠ some .t6)

/-- In the kernel or in a task, with `todo` left of `os_start`. Interrupts
are still disabled, or `mtvec` is set. -/
structure InKernel (E : BootEnv) (todo : List BootOp) (h : Hart) : Prop where
  mscratch : h.csr .mscratch = E.timerScratch
  ready : (todo = osStart E ∧ h.csr .mstatus &&& statusMie = 0#32) ∨
    (todo <:+ (osStart E).tail ∧ h.csr .mtvec = E.trapVector)

/-- The invariant, when `mscratch` holds the save area at reset. -/
def BootInv (E : BootEnv) (s : BootState) : Prop :=
  match s.place with
  | .kernel todo => InKernel E todo s.hart
  | .entry is todo => InTrap E is todo s.hart ∧ BaseReady E is s.hart
  | .exit is todo => InTrap E is todo s.hart
  | .lost => False

section Steps

variable {E : BootEnv} {s t : BootState}

/-- One instruction of `trap_vector`. -/
theorem InTrap.exec {i : Instr} {is : List Instr} {todo : List BootOp} {h : Hart}
    (hin : InTrap E (i :: is) todo h) : InTrap E is todo (h.exec i) where
  todo := hin.todo
  mtvec := by
    rw [h.exec_csr_of_ne (hin.quiet i List.mem_cons_self).2]
    exact hin.mtvec
  off := by
    rw [h.exec_csr_of_ne (hin.quiet i List.mem_cons_self).1]
    exact hin.off
  quiet j hj := hin.quiet j (List.mem_cons_of_mem i hj)
  mscratch := hin.mscratch

/-- The instructions behind the swap store relative to `t6`, and keep it. -/
theorem trapEntry_tail_stores :
    ∀ i ∈ trapEntry.tail, i.storesIn .t6 saveAreaSize = true ∧ i.regDst ≠ some .t6 := by
  decide

/-- The entry of the trap writes neither `mstatus` nor `mtvec`. -/
theorem trapEntry_quiet :
    ∀ i ∈ trapEntry, i.csrDst ≠ some .mstatus ∧ i.csrDst ≠ some .mtvec := by
  decide

/-- The exit of the trap writes none of `mstatus`, `mtvec` and `mscratch`. -/
theorem trapExit_quiet :
    ∀ i ∈ trapExit, i.csrDst ≠ some .mstatus ∧ i.csrDst ≠ some .mtvec ∧
      i.csrDst ≠ some .mscratch := by
  decide

/-- One instruction keeps the base of the stores. The first one is the
swap. -/
theorem BaseReady.exec {i : Instr} {is : List Instr} {h : Hart}
    (hbase : BaseReady E (i :: is) h) : BaseReady E is (h.exec i) := by
  cases hbase with
  | inl hswap =>
      obtain ⟨heq, hscratch⟩ := hswap
      obtain ⟨rfl, rfl⟩ : i = .csrrw .t6 .mscratch .t6 ∧ is = trapEntry.tail :=
        List.cons.inj heq
      refine Or.inr ⟨?_, trapEntry_tail_stores⟩
      rw [← hscratch]
      exact Hart.setReg_reg_self _ _ _
  | inr hready =>
      obtain ⟨ht6, hall⟩ := hready
      refine Or.inr ⟨?_, fun j hj => hall j (List.mem_cons_of_mem i hj)⟩
      rw [h.exec_reg_of_ne (hall i List.mem_cons_self).2]
      exact ht6

/-- The stores of `trap_vector` land in the save area. -/
theorem BaseReady.stores {i : Instr} {is : List Instr} {h : Hart}
    (hbase : BaseReady E (i :: is) h) {a x : Addr} (ha : i.storeAddr h = some a)
    (hx : InRange a 4 x) : InRange E.timerScratch saveAreaSize x := by
  cases hbase with
  | inl hswap =>
      obtain ⟨rfl, -⟩ : i = .csrrw .t6 .mscratch .t6 ∧ is = trapEntry.tail :=
        List.cons.inj hswap.1
      simp [Instr.storeAddr] at ha
  | inr hready =>
      obtain ⟨ht6, hall⟩ := hready
      rw [← ht6]
      exact i.inRange_storeAddr h (by decide) (hall i List.mem_cons_self).1 ha hx

/-- The first access of `os_start` sets `mtvec`. The others do not, and
write nothing but the save area to `mscratch`. -/
theorem InKernel.access {op : BootOp} {todo : List BootOp}
    (hin : InKernel E (op :: todo) s.hart) :
    InKernel E todo (s.access op).hart := by
  obtain ⟨hscratch, hready⟩ := hin
  cases hready with
  | inl hfirst =>
      obtain ⟨rfl, rfl⟩ : op = .write .mtvec E.trapVector ∧ todo = (osStart E).tail :=
        List.cons.inj hfirst.1
      exact ⟨hscratch, Or.inr ⟨List.suffix_rfl, Hart.setCsr_csr_self _ _ _⟩⟩
  | inr hlater =>
      obtain ⟨hsuffix, hmtvec⟩ := hlater
      have hmem : op ∈ (osStart E).tail := hsuffix.subset List.mem_cons_self
      have hrest : todo <:+ (osStart E).tail := (List.suffix_cons op todo).trans hsuffix
      -- The accesses of `plic_init` and `timer_init`, in their order.
      have hops : op ∈ [.read .mie, .orWrite .mie mieMeie, .read .mstatus,
          .orWrite .mstatus statusMie, .write .mscratch E.timerScratch, .read .mie,
          .orWrite .mie mieMtie] := hmem
      simp only [List.mem_cons, List.not_mem_nil, or_false] at hops
      rcases hops with rfl | rfl | rfl | rfl | rfl | rfl | rfl
      · exact ⟨hscratch, Or.inr ⟨hrest, hmtvec⟩⟩
      · exact ⟨hscratch, Or.inr ⟨hrest, hmtvec⟩⟩
      · exact ⟨hscratch, Or.inr ⟨hrest, hmtvec⟩⟩
      · exact ⟨hscratch, Or.inr ⟨hrest, hmtvec⟩⟩
      · exact ⟨Hart.setCsr_csr_self _ _ _, Or.inr ⟨hrest, hmtvec⟩⟩
      · exact ⟨hscratch, Or.inr ⟨hrest, hmtvec⟩⟩
      · exact ⟨hscratch, Or.inr ⟨hrest, hmtvec⟩⟩

/-- A trap from the kernel or a task enters `trap_vector`. -/
theorem InKernel.jump {todo : List BootOp} (cause : Word) (hin : InKernel E todo s.hart)
    (hset : todo <:+ (osStart E).tail ∧ s.hart.csr .mtvec = E.trapVector) :
    BootInv E (s.jump E cause todo) := by
  have hplace : (s.jump E cause todo).place = .entry trapEntry todo := if_pos hset.2
  have hcsr : ∀ c, c ≠ .mepc → c ≠ .mcause → c ≠ .mstatus →
      (s.hart.takeTrap cause).csr c = s.hart.csr c := fun c => s.hart.takeTrap_csr cause
  have hscratch : (s.hart.takeTrap cause).csr .mscratch = E.timerScratch :=
    (hcsr _ (by decide) (by decide) (by decide)).trans hin.mscratch
  unfold BootInv
  rw [hplace]
  refine ⟨⟨hset.1, ?_, ?_, trapEntry_quiet, ?_⟩, Or.inl ⟨rfl, hscratch⟩⟩
  · exact (hcsr _ (by decide) (by decide) (by decide)).trans hset.2
  · exact trapStatus_mie _
  · show ((s.hart.takeTrap cause).run trapEntry).csr .mscratch = _
    rw [(trapEntry_spec _).csr]
    exact hscratch

/-- `trap_handler` writes `mie` and nothing else of the control registers. -/
theorem callTrapHandler_csr (l : Leftover) (h : Hart) {c : Csr} (hc : c ≠ .mie) :
    (callTrapHandler E.platform E.own l h).csr c = h.csr c :=
  trapHandler_csr _ _ _ _ _ hc

/-- One step keeps the invariant. One case for each place. -/
theorem BootInv.step (hinv : BootInv E s) {e : BootEvent} (hstep : bootStep E s e t) :
    BootInv E t := by
  unfold BootInv at hinv
  unfold bootStep at hstep
  cases hplace : s.place with
  | lost =>
      rw [hplace] at hinv
      exact hinv.elim
  | kernel todo =>
      rw [hplace] at hinv hstep
      cases e with
      | instr | handler _ | mret => exact hstep.elim
      -- Compiled code keeps the control registers.
      | work =>
          obtain ⟨hcsr, hsame, -⟩ := hstep
          unfold BootInv
          rw [hsame]
          exact ⟨by rw [hcsr]; exact hinv.mscratch, by rw [hcsr]; exact hinv.ready⟩
      | op =>
          cases todo with
          | nil => exact hstep.elim
          | cons op todo =>
              subst hstep
              exact hinv.access
      | interrupt i =>
          obtain ⟨⟨hmie, -⟩, rfl⟩ := hstep
          cases hinv.ready with
          -- Before `mtvec` is set, interrupts are disabled.
          | inl hfirst => exact absurd hfirst.2 hmie
          | inr hset => exact hinv.jump i.cause hset
      | exception cause =>
          cases todo with
          | cons op todo => exact hstep.elim
          | nil =>
              obtain ⟨-, rfl⟩ := hstep
              cases hinv.ready with
              -- `os_start` is over, so `mtvec` is set.
              | inl hfirst => exact absurd hfirst.1 nofun
              | inr hset => exact hinv.jump cause hset
  | entry is todo =>
      rw [hplace] at hinv hstep
      obtain ⟨hin, hbase⟩ := hinv
      cases is with
      | nil =>
          cases e with
          -- `trap_handler` keeps `mtvec`, `mstatus` and `mscratch`, and the way out
          -- of `trap_vector` writes none of them.
          | handler l =>
              subst hstep
              have hcsr : ∀ c, c ≠ .mie →
                  (callTrapHandler E.platform E.own l s.hart).csr c = s.hart.csr c :=
                fun c => callTrapHandler_csr l s.hart
              refine ⟨hin.todo, ?_, ?_, ?_, ?_⟩
              · exact (hcsr _ (by decide)).trans hin.mtvec
              · show (callTrapHandler _ _ _ _).csr .mstatus &&& _ = _
                rw [hcsr _ (by decide)]
                exact hin.off
              · intro i hi
                exact ⟨(trapExit_quiet i hi).1, (trapExit_quiet i hi).2.1⟩
              · show (Hart.run trapExit (callTrapHandler _ _ _ _)).csr .mscratch = _
                rw [Hart.run_csr_of_not_written trapExit _ fun i hi => (trapExit_quiet i hi).2.2,
                  hcsr _ (by decide)]
                exact hin.mscratch
          | work | op | interrupt _ | exception _ | instr | mret => exact hstep.elim
      | cons i is =>
          cases e with
          | instr =>
              subst hstep
              exact ⟨hin.exec, hbase.exec⟩
          | work | op | interrupt _ | exception _ | handler _ | mret => exact hstep.elim
  | exit is todo =>
      rw [hplace] at hinv hstep
      cases is with
      | nil =>
          cases e with
          | mret =>
              subst hstep
              refine ⟨?_, Or.inr ⟨hinv.todo, ?_⟩⟩
              · exact (s.hart.mret_csr (by decide)).trans hinv.mscratch
              · exact (s.hart.mret_csr (by decide)).trans hinv.mtvec
          | work | op | interrupt _ | exception _ | instr | handler _ => exact hstep.elim
      | cons i is =>
          cases e with
          | instr =>
              subst hstep
              exact hinv.exec
          | work | op | interrupt _ | exception _ | handler _ | mret => exact hstep.elim

end Steps

section Runs

variable {E : BootEnv} {R : Reset} {s : BootState}

/-- With the save area in `mscratch` at reset, the invariant always holds. -/
theorem bootInv_reachable (hreset : R.hart.csr .mscratch = E.timerScratch)
    (h : (bootSystem E R).Reachable s) : BootInv E s := by
  refine System.invariant ?_ (fun _ _ _ hinv hstep => hinv.step hstep) h
  rintro s rfl
  exact ⟨hreset, Or.inl ⟨rfl, R.mie_clear⟩⟩

/-- The invariant makes a state ready for a trap, in 128 bytes. -/
theorem BootInv.ready (hinv : BootInv E s) : TrapReady E saveAreaSize s := by
  unfold BootInv at hinv
  cases hplace : s.place with
  | lost =>
      rw [hplace] at hinv
      exact hinv.elim
  -- Outside of a trap only the kernel's own code can be interrupted.
  | kernel todo =>
      rw [hplace] at hinv
      refine ⟨fun i hcan => ?_, fun i is todo' heq => absurd (hplace.symm.trans heq) nofun,
        fun todo' heq => absurd (hplace.symm.trans heq) nofun⟩
      cases hinv.ready with
      | inl hfirst => exact absurd hfirst.2 hcan.1
      | inr hset => exact ⟨hset.2, hinv.mscratch⟩
  -- On the way in and out of a trap interrupts are off. What counts are the stores.
  | entry is todo =>
      rw [hplace] at hinv
      obtain ⟨hin, hbase⟩ := hinv
      refine ⟨fun i hcan => absurd hin.off hcan.1, ?_,
        fun todo' heq => absurd (hplace.symm.trans heq) nofun⟩
      intro i rest todo' heq a ha x hx
      rw [hplace] at heq
      obtain ⟨rfl, -⟩ := Place.entry.inj heq
      exact hbase.stores ha hx
  -- On the way out it is `mscratch` at the `mret`.
  | exit is todo =>
      rw [hplace] at hinv
      refine ⟨fun i hcan => absurd hinv.off hcan.1,
        fun i is todo' heq => absurd (hplace.symm.trans heq) nofun, ?_⟩
      intro todo' heq
      rw [hplace] at heq
      obtain ⟨rfl, -⟩ := Place.exit.inj heq
      exact (s.hart.mret_csr (by decide)).trans hinv.mscratch

/-- The next access of `os_start` can always be made. -/
theorem reachable_access {op : BootOp} {todo : List BootOp} (h : (bootSystem E R).Reachable s)
    (hplace : s.place = .kernel (op :: todo)) :
    (bootSystem E R).Reachable { s.access op with place := .kernel todo } := by
  refine h.step (e := .op) ?_
  show bootStep E s .op _
  unfold bootStep
  rw [hplace]

/-- After `plic_init` the external interrupt can be taken, and `mscratch` is
as it was at reset. -/
theorem open_window (E : BootEnv) (R : Reset) :
    ∃ s, (bootSystem E R).Reachable s ∧ CanTake s.hart .external ∧
      s.hart.csr .mscratch = R.hart.csr .mscratch ∧ s.hart.csr .mtvec = E.trapVector ∧
      s.place = .kernel (timerInit E) := by
  have h₀ : (bootSystem E R).Reachable ⟨R.hart, .kernel (osStart E), R.tmp⟩ :=
    System.Reachable.of_init rfl
  -- `trap_init`, then the four accesses of `plic_init`.
  have h₁ := reachable_access h₀ rfl
  have h₂ := reachable_access h₁ rfl
  have h₃ := reachable_access h₂ rfl
  have h₄ := reachable_access h₃ rfl
  have h₅ := reachable_access h₄ rfl
  refine ⟨_, h₅, ⟨?_, ?_⟩, rfl, rfl, rfl⟩
  · show (R.hart.csr .mstatus ||| statusMie) &&& statusMie ≠ 0#32
    rw [statusMie, Ne, and_bit_eq_zero_iff _ (by decide)]
    simp
  · show (R.hart.csr .mie ||| mieMeie) &&& Irq.external.bit ≠ 0#32
    rw [mieMeie, Irq.bit, Irq.code, Ne, and_bit_eq_zero_iff _ (by decide)]
    simp

/-- A reset with anything else in `mscratch` leads to a state that is not
ready, whatever the size of the save area. -/
theorem not_ready_of_reset (hreset : R.hart.csr .mscratch ≠ E.timerScratch) (size : Nat) :
    ∃ s, (bootSystem E R).Reachable s ∧ ¬ TrapReady E size s := by
  obtain ⟨s, hreach, hcan, hscratch, -⟩ := open_window E R
  exact ⟨s, hreach, fun hready => hreset (hscratch.symm.trans (hready.take _ hcan).2)⟩

/-- In `trap_vector` the hart gets from one instruction to any later one.
Induction on the instructions before it. -/
theorem reachable_entry {todo : List BootOp} {rest : List Instr} (is : List Instr) {s : BootState}
    (h : (bootSystem E R).Reachable s) (hplace : s.place = .entry (is ++ rest) todo) :
    ∃ t, (bootSystem E R).Reachable t ∧ t.place = .entry rest todo := by
  induction is generalizing s with
  | nil => exact ⟨s, h, hplace⟩
  | cons i is ih =>
      refine ih (s := { s with hart := s.hart.exec i, place := .entry (is ++ rest) todo })
        (h.step (e := .instr) ?_) rfl
      show bootStep E s .instr _
      unfold bootStep
      rw [hplace]
      rfl

/-- With the save area in `mscratch` at reset, the sixth store of `trap_vector`
is behind the row. -/
theorem stores_leave_row (hreset : R.hart.csr .mscratch = E.timerScratch) :
    ∃ s, (bootSystem E R).Reachable s ∧ ¬ TrapReady E scratchRow s := by
  obtain ⟨s, hreach, hcan, -, hmtvec, hplace⟩ := open_window E R
  have htrap : (bootSystem E R).Reachable
      (s.jump E Irq.external.cause (timerInit E)) := by
    refine hreach.step (e := .interrupt .external) ?_
    show bootStep E s (.interrupt .external) _
    unfold bootStep
    rw [hplace]
    exact ⟨hcan, rfl⟩
  have hjump : (s.jump E Irq.external.cause (timerInit E)).place
      = .entry (trapEntry.take 6 ++ trapEntry.drop 6) (timerInit E) := if_pos hmtvec
  obtain ⟨t, ht, hentry⟩ := reachable_entry (trapEntry.take 6) htrap hjump
  refine ⟨t, ht, fun hready => ?_⟩
  have hinv := bootInv_reachable hreset ht
  unfold BootInv at hinv
  rw [hentry] at hinv
  -- The swap is over, so `t6` has the address of the row.
  obtain ⟨hswap, -⟩ | ⟨ht6, -⟩ := hinv.2
  · exact absurd hswap (by decide)
  · have hsixth := hready.stores (.sw .t1 20 .t6) (trapEntry.drop 7) (timerInit E) hentry _ rfl
      (t.hart.reg .t6 + 20#32) (by simp [InRange])
    rw [ht6, InRange, BitVec.add_comm, BitVec.add_sub_cancel] at hsixth
    exact absurd hsixth (by decide)

end Runs

/-- From no reset can a trap save its state in the row of its hart in every
reachable state. In the 128 bytes from there on it can, exactly when `mscratch`
holds the address of the row at reset already. -/
theorem boot_ready (E : BootEnv) (R : Reset) :
    (¬ ∀ s, (bootSystem E R).Reachable s → TrapReady E scratchRow s) ∧
    ((∀ s, (bootSystem E R).Reachable s → TrapReady E saveAreaSize s) ↔
      R.hart.csr .mscratch = E.timerScratch) := by
  refine ⟨fun hall => ?_, fun hall => ?_, fun hreset s hreach => ?_⟩
  · by_cases hreset : R.hart.csr .mscratch = E.timerScratch
    · obtain ⟨s, hreach, hnot⟩ := stores_leave_row hreset
      exact hnot (hall s hreach)
    · obtain ⟨s, hreach, hnot⟩ := not_ready_of_reset hreset scratchRow
      exact hnot (hall s hreach)
  · by_contra hreset
    obtain ⟨s, hreach, hnot⟩ := not_ready_of_reset hreset saveAreaSize
    exact hnot (hall s hreach)
  · exact (bootInv_reachable hreset hreach).ready

/-- A kernel image. -/
def sampleBoot : BootEnv where
  platform := { osKernel := 0x80000100#32, mhartid := 0#32 }
  trapVector := 0x80000040#32
  timerScratch := 0x80005000#32
  own _ := false

/-- A hart with cleared registers and memory. -/
def clearedReset : Reset where
  hart :=
    { reg := fun _ => 0#32
      csr := fun _ => 0#32
      pc := 0x80000000#32
      mem := fun _ => 0#8 }
  tmp := 0#32
  mie_clear := by decide

/-- From there an interrupt before `timer_init` finds `mscratch` wrong. -/
theorem clearedReset_not_ready :
    ¬ ∀ s, (bootSystem sampleBoot clearedReset).Reachable s →
      TrapReady sampleBoot scratchRow s := by
  intro hall
  have hne : clearedReset.hart.csr .mscratch ≠ sampleBoot.timerScratch := by decide
  obtain ⟨s, hreach, hnot⟩ := not_ready_of_reset hne scratchRow
  exact hnot (hall s hreach)

end MiniRiscvOs.Proofs
