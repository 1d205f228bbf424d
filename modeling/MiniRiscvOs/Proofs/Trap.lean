import MiniRiscvOs.Kernel.Trap

/-!
# `MiniRiscvOs.Proofs.Trap`: what a trap gives back

`reg_save` stores thirty registers and `reg_load` loads thirty-one. The
thirty-first is `t6`, which `trap_vector` has swapped with `mscratch` and
never stores. So a trap gives back each register but `t6`, and `t6` gets
the word that happens to be in its slot (`trap_spec`).

Everything else is as it should be: a trap other than the timer's is
transparent, and a system call changes only its result, exactly when `t6`
held that word already (`trap_transparent_iff`).
-/

set_option autoImplicit false

namespace MiniRiscvOs.Proofs

open MiniRiscvOs.Lib
open MiniRiscvOs.Kernel.SystemCall

/-! ### The save area -/

/-- The registers that `reg_save` stores, with their offsets. -/
def regFrame : Frame :=
  [(.ra, 0), (.sp, 4), (.gp, 8), (.tp, 12), (.t0, 16), (.t1, 20), (.t2, 24), (.s0, 28),
   (.s1, 32), (.a0, 36), (.a1, 40), (.a2, 44), (.a3, 48), (.a4, 52), (.a5, 56), (.a6, 60),
   (.a7, 64), (.s2, 68), (.s3, 72), (.s4, 76), (.s5, 80), (.s6, 84), (.s7, 88), (.s8, 92),
   (.s9, 96), (.s10, 100), (.s11, 104), (.t3, 108), (.t4, 112), (.t5, 116)]

/-- `reg_save` stores the registers of the frame. -/
theorem regSave_eq (base : Reg) : regSave base = saveFrame regFrame base := rfl

/-- `reg_load` loads one slot more. -/
theorem regLoad_eq (base : Reg) :
    regLoad base = loadFrame regFrame base ++ [.lw .t6 (offsetOf .t6) base] := rfl

/-- The slots of the frame do not overlap and end before that of `t6`. -/
theorem regFrame_fits : FrameFits regFrame (offsetOf .t6) where
  slots :=
    { apart := by decide
      inside := by decide
      size_le := by decide }
  nodup := by decide

/-- Only `t6` is missing. -/
theorem mem_regFrame {r : Reg} (h : r ≠ .t6) : (r, offsetOf r) ∈ regFrame := by
  cases r with
  | t6 => exact absurd rfl h
  | _ => decide

/-- `t6` is not stored. -/
theorem t6_not_mem : Reg.t6 ∉ regFrame.map Prod.fst := by decide

/-- The bytes of the save area: the fields of `struct context`, and a word
for `mepc`. -/
def saveAreaSize : Nat := 128

/-- The slot of `t6` is the last one. -/
theorem offsetOf_le (r : Reg) : offsetOf r + 4 ≤ offsetOf .t6 + 4 := by
  cases r with
  | _ => decide

/-- A field lies in the save area. -/
theorem inSaveArea {b x : Addr} (r : Reg) (hx : InRange (b + BitVec.ofNat 32 (offsetOf r)) 4 x) :
    InRange b saveAreaSize x :=
  inRange_of_add (Nat.le_trans (offsetOf_le r) (by decide)) (by decide) hx

/-- Two fields do not overlap. -/
theorem offsetOf_apart {r q : Reg} (h : r ≠ q) :
    offsetOf r + 4 ≤ offsetOf q ∨ offsetOf q + 4 ≤ offsetOf r := by
  have hr : structContext.idxOf r < structContext.length := by cases r <;> decide
  have hne : structContext.idxOf r ≠ structContext.idxOf q :=
    fun heq => h ((List.idxOf_inj (List.idxOf_lt_length_iff.mp hr)).mp heq)
  unfold offsetOf
  omega

/-! ### The two halves of `trap_vector` -/

/-- The memory that `trap_vector` hands to `trap_handler`. -/
def entryMem (h : Hart) : Mem :=
  store32 (storeSlots h.mem (h.csr .mscratch) (h.frameSlots regFrame))
    (h.csr .mscratch + BitVec.ofNat 32 124) (h.csr .mepc)

/-- `trap_vector` up to its call. -/
structure Entered (h g : Hart) : Prop where
  mem : g.mem = entryMem h
  epc : g.reg .a0 = h.csr .mepc
  cause : g.reg .a1 = h.csr .mcause
  ctx : g.reg .a2 = h.csr .mscratch
  csr : g.csr = h.csr

/-- The lemma about the entry of `trap_vector`. -/
theorem trapEntry_spec (h : Hart) : Entered h (h.run trapEntry) := by
  -- The hart after the swap: `t6` has the address, `mscratch` the old `t6`.
  obtain ⟨k, hk⟩ : ∃ k, k = h.exec (.csrrw .t6 .mscratch .t6) := ⟨_, rfl⟩
  have hbase : k.reg .t6 = h.csr .mscratch := by rw [hk]; exact Hart.setReg_reg_self _ _ _
  -- `reg_save` stores no `t6`, so it stores what was there before the swap.
  have hslots : k.frameSlots regFrame = h.frameSlots regFrame := by
    apply List.map_congr_left
    intro p hp
    have hne : p.1 ≠ .t6 := fun h => t6_not_mem (h ▸ List.mem_map_of_mem hp)
    rw [hk]
    exact congrArg (p.2, ·) (Hart.setReg_reg_of_ne _ _ hne)
  have hmem : k.mem = h.mem := by rw [hk]; rfl
  have hcsr : ∀ c, c ≠ .mscratch → k.csr c = h.csr c := by
    intro c hc
    rw [hk]
    exact Hart.setCsr_csr_of_ne _ _ hc
  have hrun : h.run trapEntry = ((k.run (saveFrame regFrame .t6)).run
      [.csrw .mscratch .t6, .csrr .a0 .mepc, .sw .a0 124 .t6,
        .csrr .a0 .mepc, .csrr .a1 .mcause, .csrr .a2 .mscratch]) := by
    rw [hk, trapEntry, Hart.run_append, Hart.run_append, regSave_eq]
    rfl
  rw [hrun, Hart.run_save, hslots, hmem, hbase]
  constructor
  · show store32 _ (k.reg .t6 + _) (k.csr .mepc) = _
    rw [hbase, hcsr .mepc (by decide)]
    rfl
  · show k.csr .mepc = _
    exact hcsr .mepc (by decide)
  · show k.csr .mcause = _
    exact hcsr .mcause (by decide)
  · show k.reg .t6 = _
    exact hbase
  -- `csrw mscratch, t6` gives `mscratch` back.
  · funext c
    show Function.update k.csr .mscratch (k.reg .t6) c = h.csr c
    by_cases hc : c = .mscratch
    · subst hc
      rw [Function.update_self, hbase]
    · rw [Function.update_of_ne hc, hcsr c hc]

/-- `trap_vector` after its call, with the `mret`. -/
structure Left (g k : Hart) : Prop where
  pc : k.pc = g.reg .a0
  mem : k.mem = g.mem
  reg : ∀ r, k.reg r = load32 g.mem (g.csr .mscratch + BitVec.ofNat 32 (offsetOf r))
  mstatus : k.csr .mstatus = mretStatus (g.csr .mstatus)
  csr : ∀ c, c ≠ .mepc → c ≠ .mstatus → k.csr c = g.csr c

/-- The lemma about its exit. -/
theorem trapExit_spec (g : Hart) : Left g (g.run trapExit).mret := by
  -- The hart before the loads.
  obtain ⟨k, hk⟩ : ∃ k, k = (g.exec (.csrw .mepc .a0)).exec (.csrr .t6 .mscratch) := ⟨_, rfl⟩
  have hbase : k.reg .t6 = g.csr .mscratch := by rw [hk]; rfl
  have hkmem : k.mem = g.mem := by rw [hk]; rfl
  have hkepc : k.csr .mepc = g.reg .a0 := by rw [hk]; rfl
  have hkcsr : ∀ c, c ≠ .mepc → k.csr c = g.csr c := by
    intro c hc
    rw [hk]
    exact Hart.setCsr_csr_of_ne _ _ hc
  obtain ⟨hmem, hcsr, -, hload, hother⟩ :=
    k.run_load regFrame .t6 regFrame_fits.nodup t6_not_mem
  have hrun : g.run trapExit
      = (k.run (loadFrame regFrame .t6)).exec (.lw .t6 (offsetOf .t6) .t6) := by
    rw [hk, trapExit, Hart.run_append, regLoad_eq, Hart.run_append]
    rfl
  rw [hrun]
  generalize k.run (loadFrame regFrame .t6) = j at *
  -- `lw t6, 120(t6)` still finds the address in `t6`.
  have hlast : j.exec (.lw .t6 (offsetOf .t6) .t6)
      = j.setReg .t6 (load32 g.mem (g.csr .mscratch + BitVec.ofNat 32 (offsetOf .t6))) := by
    show j.setReg .t6 (load32 j.mem (j.reg .t6 + _)) = _
    rw [hmem, hother _ t6_not_mem, hbase, hkmem]
  rw [hlast]
  constructor
  · simp [hcsr, hkepc]
  · simp [hmem, hkmem]
  · intro r
    by_cases hr : r = .t6
    · -- The last load overwrites its own base.
      subst hr
      simp
    · rw [Hart.mret_reg, Hart.setReg_reg_of_ne _ _ hr, hload _ (mem_regFrame hr), hbase, hkmem]
  · simp [hcsr, hkcsr .mstatus (by decide)]
  · intro c hc hstatus
    rw [Hart.mret_csr _ hstatus, Hart.setReg_csr, hcsr, hkcsr c hc]

/-! ### The memory of the save area -/

/-- A saved register is in its field. -/
theorem load32_entryMem (h : Hart) {r : Reg} (hr : r ≠ .t6) :
    load32 (entryMem h) (h.csr .mscratch + BitVec.ofNat 32 (offsetOf r)) = h.reg r := by
  have hle : offsetOf r + 4 ≤ 124 := offsetOf_le r
  rw [entryMem, load32_store32_of_disjoint]
  · exact h.load32_save regFrame_fits h.mem _ (p := (r, offsetOf r)) (mem_regFrame hr)
  · intro x hx
    exact not_inRange_of_offset (by omega) (by decide) (Or.inl hle) hx

/-- The field of `t6` is as it was. -/
theorem load32_entryMem_t6 (h : Hart) :
    load32 (entryMem h) (h.csr .mscratch + BitVec.ofNat 32 (offsetOf .t6))
      = load32 h.mem (h.csr .mscratch + BitVec.ofNat 32 (offsetOf .t6)) := by
  -- The stored fields end at offset 120, and `mepc` goes to 124.
  have hbefore : ∀ s ∈ h.frameSlots regFrame, s.1 + 4 ≤ offsetOf .t6 := by
    intro s hs
    have hmem : s.1 ∈ (h.frameSlots regFrame).map Prod.fst := List.mem_map_of_mem hs
    rw [h.frameSlots_fst] at hmem
    exact regFrame_fits.slots.inside s.1 hmem
  have hsmall : offsetOf .t6 + 4 = 124 := by decide
  rw [entryMem, load32_store32_of_disjoint]
  · exact load32_storeSlots_of_apart (by omega) (fun s hs => by have := hbefore s hs; omega)
      (fun s hs => Or.inl (hbefore s hs)) h.mem
  · intro x hx
    exact not_inRange_of_offset (by omega) (by decide) (Or.inl (by decide)) hx

/-- Outside of the save area nothing is written. -/
theorem entryMem_of_not_inRange (h : Hart) {x : Addr}
    (hx : ¬ InRange (h.csr .mscratch) saveAreaSize x) : entryMem h x = h.mem x := by
  have hslots : SlotsFit ((h.frameSlots regFrame).map Prod.fst) (offsetOf .t6) := by
    rw [h.frameSlots_fst]
    exact regFrame_fits.slots
  have hbig : offsetOf .t6 ≤ saveAreaSize := by decide
  rw [entryMem, store32_of_not_inRange]
  · exact storeSlots_of_not_inBlock hslots h.mem fun hin => hx (Nat.lt_of_lt_of_le hin hbig)
  · exact fun hin => hx (inRange_of_add (by decide) (by decide) hin)

/-! ### The trap as a whole -/

/-- `trap_handler` writes no control register but `mie`. -/
theorem trapHandler_csr (P : Platform) (epc cause ctx : Word) (h : Hart) {c : Csr}
    (hc : c ≠ .mie) : (trapHandler P epc cause ctx h).2.csr c = h.csr c := by
  unfold trapHandler
  dsimp only
  split
  · split
    · show ((h.setCsr .mie _).setCsr .mie _).csr c = h.csr c
      rw [Hart.setCsr_csr_of_ne _ _ hc, Hart.setCsr_csr_of_ne _ _ hc]
    · rfl
  · split <;> rfl

/-- The registers that a trap gives back are the words in the save area at
the return of `trap_handler`, and so is `t6`. -/
structure Trapped (own : Addr → Bool) (h : Hart) (ret : Word) (handled g : Hart) : Prop where
  pc : g.pc = ret
  reg : ∀ r, g.reg r = load32 handled.mem (h.csr .mscratch + BitVec.ofNat 32 (offsetOf r))
  mem : ∀ x, own x = false → g.mem x = handled.mem x
  mstatus : g.csr .mstatus = mretStatus (trapStatus (h.csr .mstatus))
  mie : g.csr .mie = handled.csr .mie
  mtvec : g.csr .mtvec = h.csr .mtvec
  mscratch : g.csr .mscratch = h.csr .mscratch

/-- The lemma about the whole trap, whatever `trap_handler` returns. -/
theorem trap_spec {P : Platform} {own : Addr → Bool} (l : Leftover) (cause : Word) {h : Hart}
    (hown : ∀ x, InRange (h.csr .mscratch) saveAreaSize x → own x = false)
    {r : Word × Hart} (hr : r = trapHandler P h.pc cause (h.csr .mscratch)
      ((h.takeTrap cause).run trapEntry)) :
    Trapped own h r.1 r.2 (trap P own l cause h) := by
  have hscratch : (h.takeTrap cause).csr .mscratch = h.csr .mscratch :=
    h.takeTrap_csr cause (by decide) (by decide) (by decide)
  have hentry := trapEntry_spec (h.takeTrap cause)
  -- The hart at the return of `trap_handler`.
  obtain ⟨g, hg⟩ : ∃ g, g = callTrapHandler P own l ((h.takeTrap cause).run trapEntry) := ⟨_, rfl⟩
  have hcall : g = (r.2.clobber own l).setReg .a0 r.1 := by
    rw [hg, callTrapHandler, hentry.epc, hentry.cause, hentry.ctx, hscratch, Hart.takeTrap_mepc,
      Hart.takeTrap_mcause, ← hr]
  -- Of the control registers the handler only writes `mie`.
  have hcsr : ∀ c, c ≠ .mie → g.csr c = (h.takeTrap cause).csr c := by
    intro c hc
    rw [hcall, Hart.setReg_csr]
    show r.2.csr c = _
    rw [hr, trapHandler_csr _ _ _ _ _ hc, hentry.csr]
  have hbase : g.csr .mscratch = h.csr .mscratch := by rw [hcsr _ (by decide), hscratch]
  have hmem : ∀ x, own x = false → g.mem x = r.2.mem x := by
    intro x hx
    rw [hcall, Hart.setReg_mem]
    exact Hart.clobber_mem_of_not_own l r.2 hx
  have hexit := trapExit_spec g
  have htrap : trap P own l cause h = (g.run trapExit).mret := by rw [hg]; rfl
  rw [htrap]
  constructor
  · rw [hexit.pc, hcall, Hart.setReg_reg_self]
  · intro q
    rw [hexit.reg, hbase]
    exact load32_congr fun x hx => hmem x (hown x (inSaveArea q hx))
  · intro x hx
    rw [hexit.mem, hmem x hx]
  · rw [hexit.mstatus, hcsr _ (by decide), Hart.takeTrap_mstatus]
  · rw [hexit.csr _ (by decide) (by decide), hcall]
    rfl
  · rw [hexit.csr _ (by decide) (by decide), hcsr _ (by decide)]
    exact h.takeTrap_csr cause (by decide) (by decide) (by decide)
  · rw [hexit.csr _ (by decide) (by decide), hbase]

/-! ### Traps other than the timer's -/

/-- The traps that are not the timer's and not a fault. -/
inductive TrapKind where
  | software
  | external
  | ecallU
  | ecallM
deriving DecidableEq, Repr

namespace TrapKind

/-- `mcause`. -/
def cause : TrapKind → Word
  | .software => 0x80000003#32
  | .external => 0x8000000b#32
  | .ecallU => 8#32
  | .ecallM => 11#32

/-- The trap is an `ecall`. -/
def isSyscall : TrapKind → Bool
  | .software | .external => false
  | .ecallU | .ecallM => true

end TrapKind

/-- A hart about to take a trap. The C code has the memory `own` for itself,
which is apart from the save area, and the word that `sys_gethid` is to
write belongs to the task. -/
structure TrapState where
  platform : Platform
  kind : TrapKind
  hart : Hart
  own : Addr → Bool
  own_apart : ∀ x, InRange (hart.csr .mscratch) saveAreaSize x → own x = false
  word_apart : kind.isSyscall = true → hart.reg .a7 = 1#32 → hart.reg .a0 ≠ 0#32 →
    ∀ x, InRange (hart.reg .a0) 4 x →
      own x = false ∧ ¬ InRange (hart.csr .mscratch) saveAreaSize x

namespace TrapState

variable (S : TrapState)

/-- `sys_gethid` with a pointer that is not `NULL`. -/
def Gethid : Prop :=
  S.kind.isSyscall = true ∧ S.hart.reg .a7 = 1#32 ∧ S.hart.reg .a0 ≠ 0#32

instance : Decidable S.Gethid := inferInstanceAs (Decidable (_ ∧ _ ∧ _))

/-- Where the task goes on. -/
def pcAfter : Word := if S.kind.isSyscall = true then S.hart.pc + 4#32 else S.hart.pc

/-- The registers it goes on with: those it had, but for the result of a
system call. -/
def regAfter (r : Reg) : Word :=
  if S.kind.isSyscall = true ∧ r = .a0 then (if S.Gethid then 0#32 else -1#32) else S.hart.reg r

/-- The memory of the task: as it was, but for the word of `sys_gethid`. -/
def memAfter : Mem :=
  if S.Gethid then store32 S.hart.mem (S.hart.reg .a0) S.platform.mhartid else S.hart.mem

/-- The hart after the trap. -/
def after (l : Leftover) : Hart := trap S.platform S.own l S.kind.cause S.hart

/-- The trap is transparent, but for the result of a system call. -/
structure Transparent (l : Leftover) : Prop where
  pc : (S.after l).pc = S.pcAfter
  reg : ∀ r, (S.after l).reg r = S.regAfter r
  mem : ∀ x, S.own x = false → ¬ InRange (S.hart.csr .mscratch) saveAreaSize x →
    (S.after l).mem x = S.memAfter x

/-- The field of `t6` in the save area. -/
def t6Field : Word := load32 S.hart.mem (S.hart.csr .mscratch + BitVec.ofNat 32 (offsetOf .t6))

end TrapState

/-- `do_syscall` in one line: the word of `sys_gethid`, then the result. -/
theorem doSyscall_eq (P : Platform) (ctx : Addr) (m : Mem) {num ptr : Word}
    (hnum : load32 m (ctx + BitVec.ofNat 32 (offsetOf .a7)) = num)
    (hptr : load32 m (ctx + BitVec.ofNat 32 (offsetOf .a0)) = ptr) :
    doSyscall P ctx m
      = store32 (if num = 1#32 ∧ ptr ≠ 0#32 then store32 m ptr P.mhartid else m)
          (ctx + BitVec.ofNat 32 (offsetOf .a0))
          (if num = 1#32 ∧ ptr ≠ 0#32 then 0#32 else -1#32) := by
  unfold doSyscall sysGethid
  simp only [hnum, hptr]
  by_cases h1 : num = 1#32
  · by_cases h0 : ptr = 0#32
    · simp [h1, h0]
    · simp [h1, h0]
  · simp [h1]

/-- What `trap_handler` returns, and the memory it leaves. -/
structure Handled (S : TrapState) (r : Word × Hart) : Prop where
  pc : r.1 = S.pcAfter
  field : ∀ q, q ≠ .t6 →
    load32 r.2.mem (S.hart.csr .mscratch + BitVec.ofNat 32 (offsetOf q)) = S.regAfter q
  t6 : load32 r.2.mem (S.hart.csr .mscratch + BitVec.ofNat 32 (offsetOf .t6)) = S.t6Field
  mem : ∀ x, ¬ InRange (S.hart.csr .mscratch) saveAreaSize x → r.2.mem x = S.memAfter x

section Handler

variable (S : TrapState)

/-- `trap_vector` calls `trap_handler` with this hart. -/
def TrapState.entered : Hart := (S.hart.takeTrap S.kind.cause).run trapEntry

/-- `trap_handler` returns this. -/
def TrapState.handled : Word × Hart :=
  trapHandler S.platform S.hart.pc S.kind.cause (S.hart.csr .mscratch) S.entered

/-- The memory it finds. -/
theorem entered_mem : S.entered.mem = entryMem (S.hart.takeTrap S.kind.cause) :=
  (trapEntry_spec _).mem

/-- Taking the trap leaves `mscratch`. -/
theorem takeTrap_mscratch :
    (S.hart.takeTrap S.kind.cause).csr .mscratch = S.hart.csr .mscratch :=
  S.hart.takeTrap_csr _ (by decide) (by decide) (by decide)

/-- Each register but `t6` has been stored in its slot. -/
theorem load32_entered {r : Reg} (hr : r ≠ .t6) :
    load32 S.entered.mem (S.hart.csr .mscratch + BitVec.ofNat 32 (offsetOf r)) = S.hart.reg r := by
  rw [entered_mem, ← takeTrap_mscratch]
  exact load32_entryMem _ hr

/-- The slot of `t6` is as it was. -/
theorem load32_entered_t6 :
    load32 S.entered.mem (S.hart.csr .mscratch + BitVec.ofNat 32 (offsetOf .t6)) = S.t6Field := by
  rw [entered_mem, ← takeTrap_mscratch, load32_entryMem_t6, takeTrap_mscratch]
  rfl

/-- Outside of the save area nothing has changed. -/
theorem entered_of_not_inRange {x : Addr}
    (hx : ¬ InRange (S.hart.csr .mscratch) saveAreaSize x) : S.entered.mem x = S.hart.mem x := by
  rw [← takeTrap_mscratch] at hx
  rw [entered_mem, entryMem_of_not_inRange _ hx]
  rfl

/-- An interrupt is handled without a change to the task. -/
theorem handled_interrupt (hkind : S.kind.isSyscall = false) : Handled S S.handled := by
  have hresult : S.handled = (S.hart.pc, S.entered) := by
    unfold TrapState.handled
    generalize S.entered = g
    cases hk : S.kind with
    | software | external => rfl
    | ecallU | ecallM => rw [hk] at hkind; exact absurd hkind (by decide)
  rw [hresult]
  constructor
  · simp [TrapState.pcAfter, hkind]
  · intro q hq
    simp [TrapState.regAfter, hkind, load32_entered S hq]
  · exact load32_entered_t6 S
  · intro x hx
    simp [TrapState.memAfter, TrapState.Gethid, hkind, entered_of_not_inRange S hx]

/-- A system call is handled with a change to `a0`, and to one word. -/
theorem handled_syscall (hkind : S.kind.isSyscall = true) : Handled S S.handled := by
  have hresult : S.handled = (S.hart.pc + 4#32,
      { S.entered with mem := doSyscall S.platform (S.hart.csr .mscratch) S.entered.mem }) := by
    unfold TrapState.handled
    generalize S.entered = g
    cases hk : S.kind with
    | software | external => rw [hk] at hkind; exact absurd hkind (by decide)
    | ecallU | ecallM => rfl
  have hgethid : S.Gethid ↔ S.hart.reg .a7 = 1#32 ∧ S.hart.reg .a0 ≠ 0#32 := by
    simp [TrapState.Gethid, hkind]
  -- The word of `sys_gethid` is not in the save area.
  obtain ⟨m, hm⟩ : ∃ m, m = if S.Gethid then
      store32 S.entered.mem (S.hart.reg .a0) S.platform.mhartid else S.entered.mem := ⟨_, rfl⟩
  have hcall : doSyscall S.platform (S.hart.csr .mscratch) S.entered.mem
      = store32 m (S.hart.csr .mscratch + BitVec.ofNat 32 (offsetOf .a0))
          (if S.Gethid then 0#32 else -1#32) := by
    rw [doSyscall_eq _ _ _ (load32_entered S (by decide)) (load32_entered S (by decide)), hm]
    simp only [hgethid]
  have harea : ∀ x, InRange (S.hart.csr .mscratch) saveAreaSize x → m x = S.entered.mem x := by
    intro x hx
    rw [hm]
    split
    · rename_i hg
      exact store32_of_not_inRange _ _ fun hin => (S.word_apart hg.1 hg.2.1 hg.2.2 x hin).2 hx
    · rfl
  have hfield : ∀ q, load32 m (S.hart.csr .mscratch + BitVec.ofNat 32 (offsetOf q))
      = load32 S.entered.mem (S.hart.csr .mscratch + BitVec.ofNat 32 (offsetOf q)) :=
    fun q => load32_congr fun x hx => harea x (inSaveArea q hx)
  -- The result goes to the field of `a0` and to no other.
  have hkept : ∀ q v, q ≠ .a0 →
      load32 (store32 m (S.hart.csr .mscratch + BitVec.ofNat 32 (offsetOf .a0)) v)
          (S.hart.csr .mscratch + BitVec.ofNat 32 (offsetOf q))
        = load32 S.entered.mem (S.hart.csr .mscratch + BitVec.ofNat 32 (offsetOf q)) := by
    intro q v hq
    have hle := offsetOf_le q
    have hsmall : offsetOf .t6 + 4 = 124 := by decide
    rw [load32_store32_of_disjoint, hfield]
    intro x hx
    exact not_inRange_of_offset (by omega) (by decide) (offsetOf_apart hq) hx
  rw [hresult]
  constructor
  · simp [TrapState.pcAfter, hkind]
  · intro q hq
    show load32 (doSyscall _ _ _) _ = _
    rw [hcall]
    by_cases ha0 : q = .a0
    · subst ha0
      simp [TrapState.regAfter, hkind]
    · rw [hkept q _ ha0, load32_entered S hq]
      simp [TrapState.regAfter, ha0]
  · show load32 (doSyscall _ _ _) _ = _
    rw [hcall, hkept _ _ (by decide)]
    exact load32_entered_t6 S
  · intro x hx
    show doSyscall _ _ _ x = _
    rw [hcall, store32_of_not_inRange _ _ fun hin => hx (inSaveArea .a0 hin), hm,
      TrapState.memAfter]
    -- The word of `sys_gethid`, if there is one, is outside of the save area.
    split
    · unfold store32
      rw [entered_of_not_inRange S hx]
    · exact entered_of_not_inRange S hx

/-- The lemma about the trap of the setting. -/
theorem handled_spec : Handled S S.handled := by
  cases hkind : S.kind.isSyscall with
  | false => exact handled_interrupt S hkind
  | true => exact handled_syscall S hkind

/-- The trap gives back everything but `t6`. -/
theorem after_spec (l : Leftover) :
    (S.after l).pc = S.pcAfter ∧
    (∀ r, r ≠ .t6 → (S.after l).reg r = S.regAfter r) ∧
    (S.after l).reg .t6 = S.t6Field ∧
    ∀ x, S.own x = false → ¬ InRange (S.hart.csr .mscratch) saveAreaSize x →
      (S.after l).mem x = S.memAfter x := by
  have htrap := trap_spec (P := S.platform) l S.kind.cause S.own_apart (r := S.handled) rfl
  have hhandled := handled_spec S
  refine ⟨htrap.pc.trans hhandled.pc, ?_, (htrap.reg .t6).trans hhandled.t6, ?_⟩
  · intro r hr
    exact (htrap.reg r).trans (hhandled.field r hr)
  · intro x hown hx
    exact (htrap.mem x hown).trans (hhandled.mem x hx)

end Handler

/-- A trap other than the timer's is transparent, and a system call changes
only its result, exactly when `t6` holds what its field of the save area
holds before the trap. -/
theorem trap_transparent_iff (S : TrapState) (l : Leftover) :
    S.Transparent l ↔ S.hart.reg .t6 = S.t6Field := by
  obtain ⟨hpc, hreg, ht6, hmem⟩ := after_spec S l
  have hreg6 : S.regAfter .t6 = S.hart.reg .t6 := by simp [TrapState.regAfter]
  constructor
  · intro h
    -- Transparency promises the old `t6`, and the trap loads its field.
    rw [← hreg6, ← h.reg .t6, ht6]
  · intro h
    refine ⟨hpc, fun r => ?_, hmem⟩
    by_cases hr : r = .t6
    · subst hr
      rw [ht6, hreg6, h]
    · exact hreg r hr

/-- The control registers of the running kernel. -/
def runningCsr : Csr → Word
  | .mstatus => statusMie
  | .mie => 0x880#32
  | .mtvec => 0x80000040#32
  | .mscratch => 0x80005000#32
  | .mepc | .mcause => 0#32

/-- An external interrupt with one in `t6`. The memory is cleared. -/
def liveT6 : TrapState where
  platform := { osKernel := 0x80000100#32, mhartid := 0#32 }
  kind := .external
  hart :=
    { reg := fun r => if r = .t6 then 1#32 else 0#32
      csr := runningCsr
      pc := 0x80000200#32
      mem := fun _ => 0#8 }
  own _ := false
  own_apart _ _ := rfl
  word_apart h := absurd h (by decide)

/-- The trap clears `t6`, whatever the handler does. -/
theorem liveT6_not_transparent : ¬ ∃ l, liveT6.Transparent l := by
  rintro ⟨l, h⟩
  obtain ⟨-, -, ht6, -⟩ := after_spec liveT6 l
  have hlost : liveT6.regAfter .t6 = liveT6.t6Field := (h.reg .t6).symm.trans ht6
  exact absurd hlost (by decide)

end MiniRiscvOs.Proofs
