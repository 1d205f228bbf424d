import MiniRiscvOs.Proofs.Trap

/-!
# `MiniRiscvOs.Proofs.Exceptions`: the way back from an exception

`trap_handler` answers a fault with the address of the instruction that
faulted. `fault_repeats` says what comes of it: however many traps follow, the
hart is at the same instruction with the same registers and memory, so it
faults again. Nothing ends the task, and no instruction is left out.

An `ecall` is left behind by `return_pc += 4`. `gethid_call` follows the call of
`gethid` from the first instruction of `usys.s` to its `ret`. The trap does not
give `t6` back, and a function need not either: the stub keeps the calling
convention in every state.
-/

set_option autoImplicit false

namespace MiniRiscvOs.Proofs

open MiniRiscvOs.Lib
open MiniRiscvOs.Kernel.SystemCall

/-! ### Traps that resume -/

/-- For these causes the handler returns the `pc` it was given. -/
theorem trapHandler_resumes (P : Platform) (epc ctx : Word) (h : Hart) {cause : Word}
    (hcause : Resumes cause) : trapHandler P epc cause ctx h = (epc, h) := by
  unfold Resumes at hcause
  unfold trapHandler
  dsimp only
  split
  · rename_i hasync
    rw [if_pos hasync] at hcause
    rw [if_neg hcause]
  · rename_i hsync
    rw [if_neg hsync] at hcause
    rw [if_neg (not_or.mpr hcause)]

/-- A trap keeps `MIE` in `MPIE`. -/
theorem trapStatus_mpie (s : Word) : (trapStatus s).getLsbD 7 = s.getLsbD 3 := by
  unfold trapStatus
  by_cases h : s &&& statusMie = 0#32
  · rw [if_pos h]
    rw [statusMie, and_bit_eq_zero_iff _ (by decide)] at h
    simpa [statusMie, statusMpie, statusMpp] using h
  · rw [if_neg h]
    rw [statusMie, and_bit_eq_zero_iff _ (by decide)] at h
    simpa [statusMie, statusMpie, statusMpp] using h

/-- And `mret` gives it back. -/
theorem mretStatus_mie (s : Word) : (mretStatus s).getLsbD 3 = s.getLsbD 7 := by
  unfold mretStatus
  by_cases h : s &&& statusMpie = 0#32
  · rw [if_pos h]
    rw [statusMpie, and_bit_eq_zero_iff _ (by decide)] at h
    simpa [statusMie, statusMpie, statusMpp] using h
  · rw [if_neg h]
    rw [statusMpie, and_bit_eq_zero_iff _ (by decide)] at h
    simpa [statusMie, statusMpie, statusMpp] using h

/-- `mret` enables the interrupts if they were before the trap. -/
theorem mretStatus_trapStatus_mie (s : Word) :
    mretStatus (trapStatus s) &&& statusMie = s &&& statusMie := by
  have hmask : statusMie = BitVec.twoPow 32 3 := rfl
  rw [hmask, BitVec.and_twoPow, BitVec.and_twoPow, mretStatus_mie, trapStatus_mpie]

/-- The hart goes on where it was, with what it had. Only `t6` is another: the
word in the save area. -/
structure Resumed (own : Addr → Bool) (h g : Hart) : Prop where
  pc : g.pc = h.pc
  reg : ∀ r, r ≠ .t6 → g.reg r = h.reg r
  t6Field : load32 g.mem (h.csr .mscratch + BitVec.ofNat 32 (offsetOf .t6))
    = load32 h.mem (h.csr .mscratch + BitVec.ofNat 32 (offsetOf .t6))
  mem : ∀ x, own x = false → ¬ InRange (h.csr .mscratch) saveAreaSize x → g.mem x = h.mem x
  mscratch : g.csr .mscratch = h.csr .mscratch
  mtvec : g.csr .mtvec = h.csr .mtvec
  mie : g.csr .mie = h.csr .mie
  mstatus : g.csr .mstatus &&& statusMie = h.csr .mstatus &&& statusMie

/-- Nothing happened. -/
theorem Resumed.refl (own : Addr → Bool) (h : Hart) : Resumed own h h :=
  ⟨rfl, fun _ _ => rfl, rfl, fun _ _ _ => rfl, rfl, rfl, rfl, rfl⟩

/-- Two traps in a row. -/
theorem Resumed.trans {own : Addr → Bool} {h g k : Hart} (hg : Resumed own h g)
    (hk : Resumed own g k) : Resumed own h k := by
  have hfield := hk.t6Field
  have hmem := hk.mem
  rw [hg.mscratch] at hfield hmem
  exact ⟨hk.pc.trans hg.pc, fun r hr => (hk.reg r hr).trans (hg.reg r hr),
    hfield.trans hg.t6Field, fun x hown hx => (hmem x hown hx).trans (hg.mem x hown hx),
    hk.mscratch.trans hg.mscratch, hk.mtvec.trans hg.mtvec, hk.mie.trans hg.mie,
    hk.mstatus.trans hg.mstatus⟩

/-- One trap. -/
theorem trap_resumes {P : Platform} {own : Addr → Bool} (l : Leftover) {cause : Word}
    (hcause : Resumes cause) {h : Hart}
    (hown : ∀ x, InRange (h.csr .mscratch) saveAreaSize x → own x = false) :
    Resumed own h (trap P own l cause h) ∧
      (trap P own l cause h).reg .t6 =
        load32 h.mem (h.csr .mscratch + BitVec.ofNat 32 (offsetOf .t6)) := by
  -- `k` is the hart at the call of `trap_handler`, which returns it unchanged.
  obtain ⟨k, hk⟩ : ∃ k, k = (h.takeTrap cause).run trapEntry := ⟨_, rfl⟩
  have hr : (h.pc, k) = trapHandler P h.pc cause (h.csr .mscratch)
      ((h.takeTrap cause).run trapEntry) := by
    rw [trapHandler_resumes P _ _ _ hcause, hk]
  have htrap := trap_spec l cause hown hr
  have hscratch : (h.takeTrap cause).csr .mscratch = h.csr .mscratch :=
    h.takeTrap_csr cause (by decide) (by decide) (by decide)
  have hentry := trapEntry_spec (h.takeTrap cause)
  rw [← hk] at hentry
  -- `trap_vector` does not write the slot of `t6`.
  have hfield : load32 k.mem (h.csr .mscratch + BitVec.ofNat 32 (offsetOf .t6))
      = load32 h.mem (h.csr .mscratch + BitVec.ofNat 32 (offsetOf .t6)) := by
    rw [hentry.mem, ← hscratch, load32_entryMem_t6]
    rfl
  -- What is left is to read each register back from its slot.
  refine ⟨⟨htrap.pc, fun r hr => ?_, ?_, fun x hx hout => ?_, htrap.mscratch, htrap.mtvec, ?_, ?_⟩,
    (htrap.reg .t6).trans hfield⟩
  · rw [htrap.reg r, hentry.mem, ← hscratch, load32_entryMem _ hr]
    rfl
  · rw [load32_congr fun x hx => htrap.mem x (hown x (inSaveArea .t6 hx))]
    exact hfield
  · rw [htrap.mem x hx, hentry.mem]
    rw [← hscratch] at hout
    exact entryMem_of_not_inRange _ hout
  · rw [htrap.mie]
    show k.csr .mie = _
    rw [hentry.csr]
    exact h.takeTrap_csr cause (by decide) (by decide) (by decide)
  · rw [htrap.mstatus]
    exact mretStatus_trapStatus_mie _

/-- However many interrupts other than the timer's and faults the hart takes at
an instruction, of whatever causes, and whatever the handlers do with their
own memory: it is at the same instruction with the same registers, memory and
trap registers. From the first trap on `t6` has the word of the save area, so
the state of the task no longer changes at all. -/
theorem fault_repeats (P : Platform) (own : Addr → Bool) (h g : Hart)
    (es : List (Word × Leftover))
    (hown : ∀ x, InRange (h.csr .mscratch) saveAreaSize x → own x = false)
    (hrun : (resumeSystem P own h).Run h es g) :
    Resumed own h g ∧
      (es ≠ [] → g.reg .t6 = load32 h.mem (h.csr .mscratch + BitVec.ofNat 32 (offsetOf .t6))) := by
  induction hrun with
  | nil => exact ⟨Resumed.refl own h, fun hne => absurd rfl hne⟩
  | @snoc g k es e _ hstep ih =>
      obtain ⟨hcause, rfl⟩ := hstep
      obtain ⟨hresumed, -⟩ := ih
      have hown' : ∀ x, InRange (g.csr .mscratch) saveAreaSize x → own x = false := by
        rw [hresumed.mscratch]
        exact hown
      obtain ⟨hnext, ht6⟩ := trap_resumes (P := P) e.2 hcause hown'
      refine ⟨hresumed.trans hnext, fun _ => ht6.trans ?_⟩
      rw [hresumed.mscratch]
      exact hresumed.t6Field

/-! ### The call of `gethid` -/

/-- The hart after a call of `gethid`. -/
structure GethidReturned (P : Platform) (own : Addr → Bool) (h g : Hart) : Prop where
  pc : g.pc = h.reg .ra &&& ~~~1#32
  result : g.reg .a0 = if h.reg .a0 = 0#32 then -1#32 else 0#32
  reg : ∀ r, r ≠ .a0 → r ≠ .a7 → r ≠ .t6 → g.reg r = h.reg r
  mem : ∀ x, own x = false → ¬ InRange (h.csr .mscratch) saveAreaSize x →
    g.mem x = (if h.reg .a0 = 0#32 then h.mem else store32 h.mem (h.reg .a0) P.mhartid) x
  mscratch : g.csr .mscratch = h.csr .mscratch
  mtvec : g.csr .mtvec = h.csr .mtvec
  mie : g.csr .mie = h.csr .mie

/-- A system call writes no control register. -/
theorem syscall_csr (P : Platform) (epc ctx : Word) (g : Hart) {kind : TrapKind}
    (hkind : kind.isSyscall = true) : (trapHandler P epc kind.cause ctx g).2.csr = g.csr := by
  cases kind with
  | software | external => cases hkind
  | ecallU | ecallM => rfl

/-- From its first instruction to its return `gethid` writes the number of the
hart and answers `0`, or answers `-1` to a null pointer and writes nothing. The
call comes back to `ra`. Of the registers it changes `a0`, `a7` and `t6`, which
a function may change, and no other. -/
theorem gethid_call (P : Platform) (own : Addr → Bool) (l : Leftover) (kind : TrapKind)
    (h : Hart) (hkind : kind.isSyscall = true)
    (hown : ∀ x, InRange (h.csr .mscratch) saveAreaSize x → own x = false)
    (hword : h.reg .a0 ≠ 0#32 → ∀ x, InRange (h.reg .a0) 4 x →
      own x = false ∧ ¬ InRange (h.csr .mscratch) saveAreaSize x) :
    GethidReturned P own h (gethid P own l kind.cause h) := by
  -- The hart at the `ecall`.
  let S : TrapState :=
    { platform := P
      kind := kind
      hart := { h.setReg .a7 1#32 with pc := h.pc + 4#32 }
      own := own
      own_apart := hown
      word_apart := fun _ _ ha0 => hword ha0 }
  obtain ⟨-, hreg, -, hmem⟩ := after_spec S l
  have htrap := trap_spec (P := P) l kind.cause S.own_apart (r := S.handled) rfl
  have ha0 : S.hart.reg .a0 = h.reg .a0 := rfl
  have hgethid : S.Gethid ↔ h.reg .a0 ≠ 0#32 :=
    ⟨fun hg => hg.2.2, fun hne => ⟨hkind, rfl, hne⟩⟩
  have hret : gethid P own l kind.cause h = (S.after l).ret := rfl
  have hsame : ∀ r, r ≠ .a0 → r ≠ .a7 → r ≠ .t6 → (S.after l).reg r = h.reg r := by
    intro r hr0 hr7 hr6
    rw [hreg r hr6]
    simp only [TrapState.regAfter, hr0, and_false, if_false]
    exact Hart.setReg_reg_of_ne h _ hr7
  rw [hret]
  refine ⟨?_, ?_, hsame, fun x hx hout => ?_, htrap.mscratch, htrap.mtvec, ?_⟩
  · show (S.after l).reg .ra &&& ~~~1#32 = _
    rw [hsame .ra (by decide) (by decide) (by decide)]
  · show (S.after l).reg .a0 = _
    rw [hreg .a0 (by decide), TrapState.regAfter, if_pos ⟨hkind, rfl⟩]
    by_cases hnull : h.reg .a0 = 0#32
    · rw [if_pos hnull, if_neg (by rw [hgethid]; exact not_not.mpr hnull)]
    · rw [if_neg hnull, if_pos (hgethid.mpr hnull)]
  · show (S.after l).mem x = _
    rw [hmem x hx hout, TrapState.memAfter]
    by_cases hnull : h.reg .a0 = 0#32
    · rw [if_pos hnull, if_neg (by rw [hgethid]; exact not_not.mpr hnull)]
      rfl
    · rw [if_neg hnull, if_pos (hgethid.mpr hnull)]
      rfl
  · exact (htrap.mie.trans (congrFun (syscall_csr P _ _ _ hkind) .mie)).trans
      (congrFun (trapEntry_spec _).csr .mie)

/-- An illegal instruction, and the same once more. -/
theorem liveT6_fault_repeats :
    Resumed liveT6.own liveT6.hart
      (trap liveT6.platform liveT6.own ⟨fun _ => 0#32, fun _ => 0#8⟩ 2#32
        (trap liveT6.platform liveT6.own ⟨fun _ => 0#32, fun _ => 0#8⟩ 2#32 liveT6.hart)) := by
  have hrun : (resumeSystem liveT6.platform liveT6.own liveT6.hart).Run liveT6.hart
      ([(2#32, ⟨fun _ => 0#32, fun _ => 0#8⟩)] ++ [(2#32, ⟨fun _ => 0#32, fun _ => 0#8⟩)]) _ :=
    .snoc (.single ⟨by decide, rfl⟩) ⟨by decide, rfl⟩
  exact (fault_repeats _ _ _ _ _ liveT6.own_apart hrun).1

/-- A call of `gethid` with a pointer to the stack. -/
theorem liveT6_gethid :
    GethidReturned liveT6.platform liveT6.own (liveT6.hart.setReg .a0 0x80003ff0#32)
      (gethid liveT6.platform liveT6.own ⟨fun _ => 0#32, fun _ => 0#8⟩ 11#32
        (liveT6.hart.setReg .a0 0x80003ff0#32)) := by
  refine gethid_call liveT6.platform liveT6.own ⟨fun _ => 0#32, fun _ => 0#8⟩ .ecallM
    (liveT6.hart.setReg .a0 0x80003ff0#32) rfl liveT6.own_apart fun _ x hx => ⟨rfl, ?_⟩
  -- The word lies below the save area.
  have hword : (x - 0x80003ff0#32).toNat < 4 := hx
  show ¬ (x - 0x80005000#32).toNat < 128
  bv_omega

end MiniRiscvOs.Proofs
