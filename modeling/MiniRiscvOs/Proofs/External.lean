import MiniRiscvOs.Kernel.External
import MiniRiscvOs.Proofs.VirtioData
import MiniRiscvOs.Proofs.VirtioProgress

/-!
# `MiniRiscvOs.Proofs.External`: the interrupts reach the block driver

The handler of `virtioSystem` runs whenever it likes. With the interrupts
around it, it runs when the controller forwards a request and the hart takes
it. `externalHandler_safe` says that each claim is handled by the right
function and completed once, and that no entry of the used ring goes unseen.
`externalHandler_progress` says that this is enough: each call of
`virtio_disk_rw` can still return, with no other help than interrupts.

* `IrqInv` is the invariant. `IrqInv.wake` is what the acknowledgement could
  break: `virtio_disk_isr` clears the status before it looks at the ring.
* `IrqInv.leave`: from the trap the handler gets to its return.
* `IrqInv.serve`: with an entry to consume an interrupt can be taken, and it
  consumes the entry.
-/

set_option autoImplicit false

namespace MiniRiscvOs.Proofs

open MiniRiscvOs.Lib
open MiniRiscvOs.Kernel
open MiniRiscvOs.Kernel.External

variable {ι β : Type}

/-! ### The controller -/

/-- What `plic_init` has set up. -/
structure Configured (p : Plic) : Prop where
  enable : ∀ id, p.enable id = true ↔ id = uart0Irq ∨ id = virtioIrq
  uart : p.priority uart0Irq = 1#32
  virtio : p.priority virtioIrq = 1#32
  threshold : p.threshold = 0#32

/-- `plic_init` enables the two sources, if the words it does not write are
clear. -/
theorem configured_plicInit {p : Plic} (h : ∀ id, 32 ≤ id → p.enable id = false) :
    Configured (plicInit p) := by
  have hbits : ∀ id < 32, ((1#32 <<< uart0Irq) ||| (1#32 <<< virtioIrq)).getLsbD id = true ↔
      id = uart0Irq ∨ id = virtioIrq := by decide
  refine ⟨fun id => ?_, ?_, ?_, rfl⟩
  · show (if id < 32 then _ else p.enable id) = true ↔ _
    split
    · exact hbits id ‹_›
    · have hge : 32 ≤ id := by omega
      rw [h id hge]
      unfold uart0Irq virtioIrq
      simp only [Bool.false_eq_true, false_iff]
      omega
  · have hne : uart0Irq ≠ virtioIrq := by decide
    show Function.update (Function.update p.priority uart0Irq 1#32) virtioIrq 1#32 uart0Irq = _
    rw [Function.update_of_ne hne, Function.update_self]
  · show Function.update (Function.update p.priority uart0Irq 1#32) virtioIrq 1#32 virtioIrq = _
    rw [Function.update_self]

/-- Only the enable bits, the priorities and the threshold count. -/
theorem Configured.congr {p p' : Plic} (h : Configured p) (henable : p'.enable = p.enable)
    (hpriority : p'.priority = p.priority) (hthreshold : p'.threshold = p.threshold) :
    Configured p' := by
  refine ⟨?_, ?_, ?_, hthreshold.trans h.threshold⟩
  · rw [henable]
    exact h.enable
  · rw [hpriority]
    exact h.uart
  · rw [hpriority]
    exact h.virtio

/-- Only the UART and the block device can interrupt. -/
theorem Configured.ready_iff {p : Plic} (h : Configured p) (id : Nat) :
    p.Ready id ↔
      (id = uart0Irq ∨ id = virtioIrq) ∧ p.pending id = true ∧ p.claimed id = false := by
  constructor
  · rintro ⟨-, hpend, hclaim, hen, -⟩
    exact ⟨(h.enable id).mp hen, hpend, hclaim⟩
  · rintro ⟨hid, hpend, hclaim⟩
    refine ⟨?_, hpend, hclaim, (h.enable id).mpr hid, ?_⟩
    · rcases hid with rfl | rfl <;> decide
    · rw [h.threshold]
      rcases hid with rfl | rfl
      · rw [h.uart]
        decide
      · rw [h.virtio]
        decide

/-- `plic_claim` always has something to read. -/
theorem Configured.exists_best {p : Plic} (h : Configured p) : ∃ irq, p.Best irq := by
  by_cases hv : p.Ready virtioIrq
  · refine ⟨virtioIrq, Or.inr ⟨hv, fun id hid => Or.inr ?_⟩⟩
    rcases ((h.ready_iff id).mp hid).1 with rfl | rfl
    · exact ⟨h.uart.trans h.virtio.symm, by decide⟩
    · exact ⟨rfl, Nat.le_refl _⟩
  · by_cases hu : p.Ready uart0Irq
    · refine ⟨uart0Irq, Or.inr ⟨hu, fun id hid => Or.inr ?_⟩⟩
      rcases ((h.ready_iff id).mp hid).1 with rfl | rfl
      · exact ⟨rfl, Nat.le_refl _⟩
      · exact absurd hid hv
    · refine ⟨0, Or.inl ⟨rfl, fun id hid => ?_⟩⟩
      rcases ((h.ready_iff id).mp hid).1 with rfl | rfl
      · exact hu hid
      · exact hv hid

/-- Of two ready requests that of the block device comes first. -/
theorem Configured.best_virtio {p : Plic} (h : Configured p) (hready : p.Ready virtioIrq) :
    p.Best virtioIrq := by
  refine Or.inr ⟨hready, fun id hid => Or.inr ?_⟩
  rcases ((h.ready_iff id).mp hid).1 with rfl | rfl
  · exact ⟨h.uart.trans h.virtio.symm, by decide⟩
  · exact ⟨rfl, Nat.le_refl _⟩

/-- Only the two sources are ever claimed. -/
theorem Configured.best_cases {p : Plic} (h : Configured p) {irq : Nat} (hbest : p.Best irq) :
    irq = 0 ∨ irq = uart0Irq ∨ irq = virtioIrq := by
  rcases hbest with ⟨rfl, -⟩ | ⟨hready, -⟩
  · exact Or.inl rfl
  · exact Or.inr ((h.ready_iff irq).mp hready).1

/-! ### The invariant -/

/-- The request the handler has claimed and not yet completed, `0` for none. -/
def heldIrq : ExtPc → Nat
  | .out | .claim => 0
  | .dispatch irq | .unexpected irq | .complete irq => irq
  | .libIsr => uart0Irq
  | .readStatus | .ack _ | .diskIsr => virtioIrq

/-- The program points the handler gets to. -/
def PcOk : ExtPc → Prop
  | .dispatch irq => irq = 0 ∨ irq = uart0Irq ∨ irq = virtioIrq
  | .complete irq => irq = uart0Irq ∨ irq = virtioIrq
  | .unexpected _ => False
  | _ => True

/-- The handler is in `virtio_disk_isr`. -/
def InDiskIsr : ExtPc → Prop
  | .readStatus | .ack _ | .diskIsr => True
  | _ => False

/-- The claim of a request, and the function called for it. -/
def servicing (irq : Nat) : List ExtAction :=
  [.claimed irq, if irq = uart0Irq then .libIsr else .virtioDiskIsr]

/-- All that is done for a request. -/
def service (irq : Nat) : List ExtAction := servicing irq ++ [.completed irq]

/-- What is done for the request under way. -/
def underWay : ExtPc → List ExtAction
  | .out | .claim => []
  | .dispatch irq => if irq = 0 then [] else [.claimed irq]
  | .unexpected irq => [.claimed irq, .unexpected irq]
  | .libIsr => servicing uart0Irq
  | .readStatus | .ack _ | .diskIsr => servicing virtioIrq
  | .complete irq => servicing irq

/-- The log: some requests as a whole, then the one under way. -/
def LogOk (s : IrqState ι β) : Prop :=
  ∃ rounds : List Nat, (∀ irq ∈ rounds, irq = uart0Irq ∨ irq = virtioIrq) ∧
    s.log = rounds.flatMap service ++ underWay s.pc

/-- With an entry to consume the interrupt for it is still to come, or the
line is up, or the handler has yet to leave the loop. -/
def Awake (s : IrqState ι β) : Prop :=
  s.virtio.io.disk.usedIdx ≠ s.virtio.io.disk.usedRingIdx →
    s.toRaise = true ∨ s.intStatus.getLsbD 0 = true ∨ InDiskIsr s.pc

/-- The invariant of the interrupts. -/
structure IrqInv [DecidableEq ι] [DecidableEq β] (s : IrqState ι β) : Prop where
  driver : (virtioSystem ι β).Reachable s.virtio
  configured : Configured s.plic
  inside : s.virtio.io.isr = .idle ↔ s.pc ≠ .diskIsr
  claimed : ∀ id, s.plic.claimed id = true ↔ 0 < id ∧ id = heldIrq s.pc
  pc : PcOk s.pc
  wake : Awake s
  log : LogOk s

/-- With bit 0 of the status set the line is up. -/
theorem level_of_bit {s : IrqState ι β} (h : s.intStatus.getLsbD 0 = true) :
    s.level virtioIrq = true := by
  have hne : s.intStatus ≠ 0#32 := by
    intro hzero
    simp [hzero] at h
  simp [IrqState.level, hne]

section Steps

variable [DecidableEq ι] [DecidableEq β]

/-- The invariant holds at first. -/
theorem irqInv_init {s : IrqState ι β} (h : IrqInit s) : IrqInv s := by
  obtain ⟨hvirtio, -, -, hpc, hlog, p, hbits, hclaimed, hplic⟩ := h
  obtain ⟨-, -, -, hring, hused, -, -, hisr, -⟩ := id hvirtio
  refine ⟨System.Reachable.of_init hvirtio, hplic ▸ configured_plicInit hbits, ?_, fun id => ?_,
    hpc ▸ trivial, fun hne => absurd (hused.trans hring.symm) hne, [], by simp, ?_⟩
  · rw [hisr, hpc]
    simp
  · have hid : s.plic.claimed id = false := hplic ▸ hclaimed id
    rw [hid, hpc]
    show false = true ↔ 0 < id ∧ id = 0
    simp only [Bool.false_eq_true, false_iff]
    omega
  · rw [hlog, hpc]
    rfl

/-! ### The driver beside the handler -/

/-- The statements of the driver leave the used ring and the handler alone. -/
theorem rwStep_used (c : RwCall β) (io : DiskIo β) (pc : RwPc) :
    (rwStep c io pc).1.isr = io.isr ∧ (rwStep c io pc).1.disk.usedIdx = io.disk.usedIdx ∧
      (rwStep c io pc).1.disk.usedRingIdx = io.disk.usedRingIdx := by
  unfold rwStep
  split
  all_goals first
    | exact ⟨rfl, rfl, rfl⟩
    | (split <;> first
        | exact ⟨rfl, rfl, rfl⟩
        | (split <;> exact ⟨rfl, rfl, rfl⟩)
        | (rename_i hk
           -- A statement of `rwFormat`.
           obtain ⟨-, -, hring, hused⟩ := rwFormat_rings (List.mem_of_getElem? hk) io.disk
           exact ⟨rfl, hused, hring⟩))

omit [DecidableEq β] in
/-- Of the moves of the device only one counts an entry. -/
theorem Served.devStep_used {c : RwCall β} {io io' : DiskIo β} (hsub : Submitted c io.disk)
    (h : Served c io) {m : DevMove} (hstep : DevStep io m io') :
    io'.isr = io.isr ∧ io'.disk.usedIdx = io.disk.usedIdx ∧
      ((∀ k, m ≠ .bump k) → io'.disk.usedRingIdx = io.disk.usedRingIdx) := by
  obtain ⟨q, hq, hstatus⟩ := hsub.statusAt
  -- There is one request, so each move of the device is on that of `c`.
  have hhead : ∀ {k : Nat} {r : InFlight}, io.inFlight[k]? = some r →
      statusDesc io.disk r.head = some q := by
    intro k r hr
    obtain ⟨stage, hflight⟩ := h.inFlight (by rintro hnil; simp [hnil] at hr)
    have hmem := List.mem_of_getElem? hr
    rw [hflight] at hmem
    obtain rfl := List.mem_singleton.mp hmem
    exact hq
  cases m with
  | take =>
      obtain ⟨-, rfl⟩ := hstep
      exact ⟨rfl, rfl, fun _ => rfl⟩
  | transfer k =>
      obtain ⟨r, -, -, rfl⟩ := hstep
      exact ⟨rfl, rfl, fun _ => rfl⟩
  | writeStatus k =>
      obtain ⟨r, hr, -, hnext⟩ := hstep
      obtain rfl := hnext q 0 (hhead hr) hstatus
      exact ⟨rfl, rfl, fun _ => rfl⟩
  | append k =>
      obtain ⟨r, -, -, -, rfl⟩ := hstep
      exact ⟨rfl, rfl, fun _ => rfl⟩
  | bump k =>
      obtain ⟨r, -, -, rfl⟩ := hstep
      exact ⟨rfl, rfl, fun hm => absurd rfl (hm k)⟩

/-- A step outside of the handler leaves the handler alone. If it counts no
entry it leaves the used ring alone. -/
theorem DriverInv.step_used {s s' : VirtioState ι β} (hinv : DriverInv s) {e : VirtioEvent ι β}
    (he : e ≠ .isr) (hstep : VirtioStep s e s') :
    s'.io.isr = s.io.isr ∧ s'.io.disk.usedIdx = s.io.disk.usedIdx ∧
      (countsEntry e = false → s'.io.disk.usedRingIdx = s.io.disk.usedRingIdx) := by
  cases e with
  | setBlockno b n =>
      obtain ⟨-, rfl⟩ := hstep
      exact ⟨rfl, rfl, fun _ => rfl⟩
  | call t b write =>
      obtain ⟨-, -, rfl⟩ := hstep
      exact ⟨rfl, rfl, fun _ => rfl⟩
  | isr => exact absurd rfl he
  | task t =>
      obtain ⟨-, c, pc, -, rfl⟩ := hstep
      obtain ⟨hisr, hused, hring⟩ := rwStep_used c s.io pc
      cases pc with
      | acquire | unlock => exact ⟨rfl, rfl, fun _ => rfl⟩
      | _ => exact ⟨hisr, hused, fun _ => hring⟩
  | device m =>
      obtain ⟨io, hdev, rfl⟩ := hstep
      -- A quiet disk has no request for the device to move.
      by_cases hquiet : Quiet s.io
      · exact absurd hdev (hquiet.not_devStep m)
      · obtain ⟨t, c, pc, -, -, -, hsub, hserved⟩ := hinv.request hquiet
        obtain ⟨hisr, hused, hring⟩ := hserved.devStep_used hsub hdev
        refine ⟨hisr, hused, fun hcount => hring ?_⟩
        rintro k rfl
        simp [countsEntry] at hcount

/-! ### The handler -/

omit [DecidableEq ι] [DecidableEq β] in
/-- More is done for the request under way. -/
theorem LogOk.goto {s s' : IrqState ι β} (h : LogOk s) {done : List ExtAction}
    (hlog : s'.log = s.log ++ done) (hdone : underWay s.pc ++ done = underWay s'.pc) :
    LogOk s' := by
  obtain ⟨rounds, hrounds, hs⟩ := h
  exact ⟨rounds, hrounds, by rw [hlog, hs, List.append_assoc, hdone]⟩

omit [DecidableEq ι] [DecidableEq β] in
/-- A step of the handler that leaves the driver and the line as they are. -/
theorem Awake.goto {s s' : IrqState ι β} (h : Awake s) (hvirtio : s'.virtio = s.virtio)
    (hraise : s'.toRaise = s.toRaise) (hstatus : s'.intStatus = s.intStatus)
    (hin : InDiskIsr s.pc → InDiskIsr s'.pc) : Awake s' := by
  unfold Awake at h ⊢
  rw [hvirtio, hraise, hstatus]
  exact fun hne => (h hne).imp_right (Or.imp_right hin)

/-- A step of the handler that leaves the driver and the controller alone. -/
theorem IrqInv.goto {s s' : IrqState ι β} (h : IrqInv s) {done : List ExtAction}
    (hlog : s'.log = s.log ++ done) (hdone : underWay s.pc ++ done = underWay s'.pc)
    (hvirtio : s'.virtio = s.virtio) (hraise : s'.toRaise = s.toRaise)
    (hstatus : s'.intStatus = s.intStatus) (hplic : s'.plic = s.plic)
    (hpc : s.pc ≠ .diskIsr) (hpc' : s'.pc ≠ .diskIsr) (hheld : heldIrq s'.pc = heldIrq s.pc)
    (hok : PcOk s'.pc) (hin : InDiskIsr s.pc → InDiskIsr s'.pc) : IrqInv s' := by
  refine ⟨?_, ?_, ?_, fun id => ?_, hok, h.wake.goto hvirtio hraise hstatus hin,
    h.log.goto hlog hdone⟩
  · rw [hvirtio]
    exact h.driver
  · rw [hplic]
    exact h.configured
  · rw [hvirtio]
    exact iff_of_true (h.inside.mpr hpc) hpc'
  · rw [hplic, hheld]
    exact h.claimed id

omit [DecidableEq ι] in
/-- The loop ends when there is no entry left. -/
theorem consumed_of_isrStep {io : DiskIo β} (h : (isrStep io).isr = .idle) :
    (isrStep io).disk.usedIdx = (isrStep io).disk.usedRingIdx := by
  obtain ⟨disk, lastAvail, inFlight, isr, slotCall, completed⟩ := io
  cases isr with
  | test =>
      by_cases hne : disk.usedIdx = disk.usedRingIdx
      · exact hne
      · simp [isrStep, hne] at h
  | checkStatus id =>
      by_cases hst : disk.infoStatus id = 0#8 <;> simp [isrStep, hst] at h
  | clear b => cases b <;> simp [isrStep] at h
  | _ => simp [isrStep] at h

/-- A turn of the loop of `virtio_disk_isr`, or the way into it. -/
theorem IrqInv.diskIsrStep {s : IrqState ι β} (h : IrqInv s)
    (hpc : (∃ status, s.pc = .ack status) ∨ s.pc = .diskIsr) (w : Word) :
    IrqInv (External.diskIsrStep { s with intStatus := w }) := by
  -- In both places the device's request is claimed and its handler is called.
  have hheld : heldIrq s.pc = virtioIrq := by
    rcases hpc with ⟨status, hpc⟩ | hpc <;> rw [hpc] <;> rfl
  have hunder : underWay s.pc = servicing virtioIrq := by
    rcases hpc with ⟨status, hpc⟩ | hpc <;> rw [hpc] <;> rfl
  have hdriver : (virtioSystem ι β).Reachable { s.virtio with io := isrStep s.virtio.io } :=
    h.driver.step (e := .isr) rfl
  have hclaimed : ∀ id, s.plic.claimed id = true ↔ 0 < id ∧ id = virtioIrq := by
    intro id
    rw [← hheld]
    exact h.claimed id
  unfold External.diskIsrStep
  by_cases hidle : (isrStep s.virtio.io).isr = .idle
  · rw [if_pos hidle]
    -- The loop has ended, so the indices agree.
    refine ⟨hdriver, h.configured, iff_of_true hidle (by simp), hclaimed, Or.inr rfl,
      fun hne => absurd (consumed_of_isrStep hidle) hne, ?_⟩
    exact h.log.goto (List.append_nil _).symm (by rw [hunder, List.append_nil]; rfl)
  · rw [if_neg hidle]
    -- The handler is in its loop, so it will look at the ring once more.
    refine ⟨hdriver, h.configured, iff_of_false hidle (by simp), hclaimed, trivial,
      fun _ => Or.inr (Or.inr trivial), ?_⟩
    exact h.log.goto (List.append_nil _).symm (by rw [hunder, List.append_nil]; rfl)

/-- A step of the handler. -/
theorem IrqInv.handler {s s' : IrqState ι β} (h : IrqInv s) (hstep : HandlerStep s s') :
    IrqInv s' := by
  have hclaimed := h.claimed
  have hok := h.pc
  unfold HandlerStep at hstep
  cases hpc : s.pc with
  | out =>
      rw [hpc] at hstep
      exact hstep.elim
  | claim =>
      rw [hpc] at hstep hclaimed
      obtain ⟨irq, hbest, rfl⟩ := hstep
      -- Nothing is claimed outside of a round, so the claim is the only one.
      have hnone : ∀ id, s.plic.claimed id = false := fun id => by
        have hid := hclaimed id
        rw [Bool.eq_false_iff]
        rintro htrue
        have hzero : 0 < id ∧ id = 0 := hid.mp htrue
        omega
      have hidle : s.virtio.io.isr = .idle := h.inside.mpr (by simp [hpc])
      refine ⟨h.driver, ?_, iff_of_true hidle (by simp [IrqState.goto]), fun id => ?_,
        h.configured.best_cases hbest, ?_, h.log.goto rfl (by rw [hpc]; rfl)⟩
      · refine h.configured.congr ?_ ?_ ?_ <;>
          (simp only [IrqState.goto, Plic.claim]; split <;> rfl)
      · show (s.plic.claim irq).claimed id = true ↔ 0 < id ∧ id = irq
        unfold Plic.claim
        split
        · rw [hnone id]
          simp only [Bool.false_eq_true, false_iff]
          omega
        · by_cases hid : id = irq
          · subst hid
            simp
            omega
          · simp [hnone id, hid]
      · refine h.wake.goto rfl rfl rfl ?_
        rw [hpc]
        exact False.elim
  | dispatch irq =>
      rw [hpc] at hstep hok
      -- Each branch of the handler leaves the driver and the controller alone.
      have hpc' : s.pc ≠ .diskIsr := by simp [hpc]
      dsimp only at hstep
      split at hstep
      · rename_i heq
        subst heq hstep
        refine h.goto rfl ?_ rfl rfl rfl rfl hpc' (by simp [IrqState.goto]) ?_ trivial ?_ <;>
          rw [hpc]
        · rfl
        · rfl
        · exact False.elim
      · split at hstep
        · rename_i heq
          subst heq hstep
          refine h.goto rfl ?_ rfl rfl rfl rfl hpc' (by simp [IrqState.goto]) ?_ trivial ?_ <;>
            rw [hpc]
          · rfl
          · rfl
          · exact False.elim
        · split at hstep
          · -- The controller knows of two sources, so this branch is not taken.
            rename_i huart hvirtio hne
            exact absurd hok (by simp [PcOk, huart, hvirtio, hne])
          · rename_i hzero
            obtain rfl : irq = 0 := by simpa using hzero
            subst hstep
            refine h.goto rfl ?_ rfl rfl rfl rfl hpc' (by simp [IrqState.goto]) ?_ trivial ?_ <;>
              rw [hpc]
            · rfl
            · rfl
            · exact False.elim
  | libIsr =>
      rw [hpc] at hstep
      have hpc' : s.pc ≠ .diskIsr := by simp [hpc]
      dsimp only at hstep
      split at hstep
      · subst hstep
        refine h.goto (List.append_nil _).symm ?_ rfl rfl rfl rfl hpc' (by simp) ?_ trivial ?_ <;>
          rw [hpc]
        · rfl
        · exact False.elim
      · subst hstep
        refine h.goto rfl ?_ rfl rfl rfl rfl hpc' (by simp [IrqState.goto]) ?_ (Or.inl rfl) ?_ <;>
          rw [hpc]
        · rfl
        · rfl
        · exact False.elim
  | readStatus =>
      rw [hpc] at hstep
      subst hstep
      refine h.goto rfl ?_ rfl rfl rfl rfl (by simp [hpc]) (by simp [IrqState.goto]) ?_ trivial
        fun _ => trivial
      · rw [hpc]
        rfl
      · rw [hpc]
        rfl
  | ack status =>
      rw [hpc] at hstep
      subst hstep
      exact h.diskIsrStep (Or.inl ⟨status, hpc⟩) _
  | diskIsr =>
      rw [hpc] at hstep
      subst hstep
      exact h.diskIsrStep (Or.inr hpc) s.intStatus
  | unexpected irq =>
      rw [hpc] at hok
      exact hok.elim
  | complete irq =>
      rw [hpc] at hstep hclaimed hok
      subst hstep
      have hidle : s.virtio.io.isr = .idle := h.inside.mpr (by simp [hpc])
      refine ⟨h.driver, h.configured.congr rfl rfl rfl, iff_of_true hidle (by simp [IrqState.goto]),
        fun id => ?_, trivial, ?_, ?_⟩
      · -- The completion takes back the claim of this round.
        show Function.update s.plic.claimed irq false id = true ↔ 0 < id ∧ id = 0
        have hid := hclaimed id
        by_cases heq : id = irq
        · subst heq
          simp
          omega
        · have hnot : ¬ (0 < id ∧ id = irq) := fun hboth => heq hboth.2
          rw [Function.update_of_ne heq]
          exact iff_of_false (fun htrue => hnot (hid.mp htrue)) (by omega)
      · refine h.wake.goto rfl rfl rfl ?_
        rw [hpc]
        exact False.elim
      · -- The round is complete.
        obtain ⟨rounds, hrounds, hlog⟩ := h.log
        refine ⟨rounds ++ [irq], fun r hr => ?_, ?_⟩
        · rcases List.mem_append.mp hr with hr | hr
          · exact hrounds r hr
          · exact List.mem_singleton.mp hr ▸ hok
        · show s.log ++ [.completed irq] = _
          rw [hlog, hpc]
          simp [IrqState.goto, service, underWay]

/-- Each step keeps the invariant. -/
theorem IrqInv.step {s s' : IrqState ι β} (h : IrqInv s) {e : IrqEvent ι β}
    (hstep : IrqStep s e s') : IrqInv s' := by
  cases e with
  | virtio e =>
      obtain ⟨he, -, v, hv, rfl⟩ := hstep
      -- Tasks and device leave the handler and its index alone.
      obtain ⟨hisr, hused, hring⟩ := (driverInv_reachable h.driver).step_used he hv
      refine ⟨h.driver.step hv, h.configured, ?_, h.claimed, h.pc, fun hne => ?_,
        h.log.goto (List.append_nil _).symm (List.append_nil _)⟩
      · show v.io.isr = .idle ↔ _
        -- The device counts an entry and notifies, or the ring is as before.
        rw [hisr]
        exact h.inside
      · by_cases hcount : countsEntry e = true
        · exact Or.inl (by simp [hcount])
        · have hcount' : countsEntry e = false := by simpa using hcount
          have hsame : s.virtio.io.disk.usedIdx ≠ s.virtio.io.disk.usedRingIdx := by
            rw [← hused, ← hring hcount']
            exact hne
          exact (h.wake hsame).imp_left fun hraise => by simp [hraise]
  | raise =>
      obtain ⟨-, rfl⟩ := hstep
      exact ⟨h.driver, h.configured, h.inside, h.claimed, h.pc,
        fun _ => Or.inr (Or.inl (by simp)), h.log⟩
  | configChange =>
      obtain rfl := hstep
      refine ⟨h.driver, h.configured, h.inside, h.claimed, h.pc, fun hne => ?_, h.log⟩
      exact (h.wake hne).imp_right (Or.imp_left fun hbit => by simp [hbit])
  | line id level =>
      obtain rfl := hstep
      exact ⟨h.driver, h.configured, h.inside, h.claimed, h.pc, h.wake, h.log⟩
  | forward id =>
      obtain ⟨-, -, rfl⟩ := hstep
      exact ⟨h.driver, h.configured.congr rfl rfl rfl, h.inside, h.claimed, h.pc, h.wake, h.log⟩
  | drop id =>
      obtain ⟨-, rfl⟩ := hstep
      exact ⟨h.driver, h.configured.congr rfl rfl rfl, h.inside, h.claimed, h.pc, h.wake, h.log⟩
  | trap =>
      obtain ⟨hpc, -, rfl⟩ := hstep
      refine h.goto (List.append_nil _).symm ?_ rfl rfl rfl rfl (by simp [hpc]) (by simp) ?_
        trivial ?_ <;> rw [hpc]
      · rfl
      · rfl
      · exact False.elim
  | handler => exact h.handler hstep

/-- The invariant holds in every reachable state. -/
theorem irqInv_reachable {s : IrqState ι β} (hs : (irqSystem ι β).Reachable s) : IrqInv s :=
  System.invariant (M := irqSystem ι β) (fun _ h => irqInv_init h)
    (fun _ _ _ h hstep => IrqInv.step h hstep) hs

/-- In every run each request is claimed, handed to its function and
completed, one after the other, and the request of another source never
comes. The driver is in a state of `virtioSystem`. With an entry of the used
ring to consume, the device is about to set its status, or its line is up, or
the handler is still to look at the ring. -/
theorem externalHandler_safe (s : IrqState ι β) (hs : (irqSystem ι β).Reachable s) :
    (virtioSystem ι β).Reachable s.virtio ∧
    (∃ rounds : List Nat, (∀ irq ∈ rounds, irq = uart0Irq ∨ irq = virtioIrq) ∧
      s.log = rounds.flatMap service ++ underWay s.pc) ∧
    (∀ irq, s.pc ≠ .unexpected irq) ∧
    (s.virtio.io.disk.usedIdx ≠ s.virtio.io.disk.usedRingIdx →
      s.toRaise = true ∨ s.level virtioIrq = true ∨ InDiskIsr s.pc) := by
  have h := irqInv_reachable hs
  refine ⟨h.driver, h.log, fun irq hpc => ?_, fun hne => ?_⟩
  · have hok := h.pc
    rw [hpc] at hok
    exact hok
  · exact (h.wake hne).imp_right (Or.imp_left level_of_bit)

/-! ### The handler gets to its return -/

/-- How far the loop of `virtio_disk_isr` is from its end. -/
def loopRank (io : DiskIo β) : Nat :=
  isrRank (io.disk.usedIdx ≠ io.disk.usedRingIdx) io.isr

omit [DecidableEq ι] in
/-- With no entry the loop ends at its test. -/
theorem loopRank_lt_of_consumed {io : DiskIo β} (hcons : io.disk.usedIdx = io.disk.usedRingIdx)
    (htest : io.isr = .test) : loopRank (isrStep io) < loopRank io := by
  have hstep : isrStep io = { io with isr := .idle } := by simp [isrStep, htest, hcons]
  rw [hstep, loopRank, loopRank, htest]
  simp [hcons, isrRank]

omit [DecidableEq ι] in
/-- With an entry it ends after the entry. -/
theorem Served.loopRank_lt {c : RwCall β} {io : DiskIo β} (hsub : Submitted c io.disk)
    (h : Served c io) (hisr : io.isr ≠ .idle) : loopRank (Kernel.isrStep io) < loopRank io := by
  -- Where the device has nothing to do, `served` is the rank of the loop.
  have hloop : io.lastAvail = io.disk.availIdx → io.inFlight = [] →
      loopRank (Kernel.isrStep io) < loopRank io := by
    intro htaken hnil
    obtain ⟨-, -, hflight, hlast, havail⟩ := isrStep_device io
    have hold : served io = loopRank io := served_handler htaken hnil
    have hnew : served (Kernel.isrStep io) = loopRank (Kernel.isrStep io) :=
      served_handler (hlast.trans (htaken.trans havail.symm)) (hflight.trans hnil)
    rcases h.progress hsub with ⟨m, io', hdev, -⟩ | hlt | ⟨hidle, -⟩
    · cases m with
      | take => exact absurd htaken hdev.1
      | transfer k | writeStatus k | append k | bump k =>
          obtain ⟨r, hr, -⟩ := hdev
          simp [hnil] at hr
    · rwa [hold, hnew] at hlt
    · exact absurd hidle hisr
  cases h with
  | published _ _ consumed isr => exact loopRank_lt_of_consumed consumed (isr.resolve_left hisr)
  | inDevice _ _ _ consumed isr => exact loopRank_lt_of_consumed consumed (isr.resolve_left hisr)
  | used taken inFlight | cleared taken inFlight => exact hloop taken inFlight
  | done quiet => exact hloop quiet.taken quiet.inFlight

omit [DecidableEq ι] in
/-- So does one in the driver. -/
theorem DriverInv.loopRank_lt {s : VirtioState ι β} (hinv : DriverInv s) (hisr : s.io.isr ≠ .idle) :
    loopRank (isrStep s.io) < loopRank s.io := by
  by_cases hquiet : Quiet s.io
  · exact loopRank_lt_of_consumed hquiet.consumed (hquiet.isr.resolve_left hisr)
  · obtain ⟨t, c, pc, -, -, -, hsub, hserved⟩ := hinv.request hquiet
    exact hserved.loopRank_lt hsub hisr

omit [DecidableEq ι] in
/-- A step of the loop takes nothing away from the device. -/
theorem served_isrStep (io : DiskIo β) :
    served (isrStep io) = served io ∨
      (served (isrStep io) = loopRank (isrStep io) ∧ served io = loopRank io) := by
  obtain ⟨-, -, hflight, hlast, havail⟩ := isrStep_device io
  unfold served
  rw [hflight, hlast, havail]
  split
  · exact Or.inl rfl
  · split
    · exact Or.inl rfl
    · exact Or.inr ⟨rfl, rfl⟩

/-- How far the handler is from its return. -/
def handlerRank (s : IrqState ι β) : Nat :=
  match s.pc with
  | .out => 0
  | .complete _ => 1
  | .unexpected _ => 2
  | .diskIsr => 2 + loopRank s.virtio.io
  | .libIsr => if s.line uart0Irq then 3 else 2
  | .ack _ => 13
  | .readStatus => 14
  | .dispatch _ => 15
  | .claim => 16

omit [DecidableEq ι] in
/-- After a step of the loop the handler is no further off than the loop says.
-/
theorem handlerRank_diskIsrStep_le (s : IrqState ι β) :
    handlerRank (diskIsrStep s) ≤ 2 + loopRank (isrStep s.virtio.io) := by
  unfold diskIsrStep
  split
  · show 1 ≤ _
    omega
  · exact Nat.le_refl _

/-- The handler has been in the loop of `virtio_disk_isr`. -/
def Acked : ExtPc → Prop
  | .diskIsr | .complete _ | .out => True
  | _ => False

/-- What the handler leaves alone: the tasks, the lock, and from the loop on
what has been achieved. -/
structure HandlerKept (s s' : IrqState ι β) : Prop where
  task : s'.virtio.task = s.virtio.task
  lock : s'.virtio.vdiskLock = s.virtio.vdiskLock
  acked : Acked s.pc → Acked s'.pc ∧ served s'.virtio.io ≤ served s.virtio.io

omit [DecidableEq ι] [DecidableEq β] in
/-- Two stretches of the handler. -/
theorem HandlerKept.trans {s t u : IrqState ι β} (h : HandlerKept s t) (h' : HandlerKept t u) :
    HandlerKept s u := by
  refine ⟨h'.task.trans h.task, h'.lock.trans h.lock, fun hs => ?_⟩
  obtain ⟨ht, hle⟩ := h.acked hs
  obtain ⟨hu, hle'⟩ := h'.acked ht
  exact ⟨hu, hle'.trans hle⟩

/-- Short of its return the handler has a step on. -/
theorem IrqInv.handler_next {s : IrqState ι β} (h : IrqInv s) (hout : s.pc ≠ .out) :
    ∃ s', HandlerStep s s' ∧ HandlerKept s s' ∧ handlerRank s' < handlerRank s := by
  have hok := h.pc
  unfold HandlerStep handlerRank
  cases hpc : s.pc with
  | out => exact absurd hpc hout
  | claim =>
      obtain ⟨irq, hbest⟩ := h.configured.exists_best
      exact ⟨_, ⟨irq, hbest, rfl⟩, ⟨rfl, rfl, by simp [hpc, Acked]⟩, Nat.lt_succ_self _⟩
  | dispatch irq =>
      dsimp only
      by_cases huart : irq = uart0Irq
      · simp only [if_pos huart]
        refine ⟨_, rfl, ⟨rfl, rfl, by simp [hpc, Acked]⟩, ?_⟩
        show (if s.line uart0Irq then 3 else 2) < 15
        split <;> decide
      · by_cases hvirtio : irq = virtioIrq
        · simp only [if_neg huart, if_pos hvirtio]
          exact ⟨_, rfl, ⟨rfl, rfl, by simp [hpc, Acked]⟩, Nat.lt_succ_self _⟩
        · -- Of the requests that can be claimed only zero is left.
          have hzero : irq = 0 := by
            rw [hpc] at hok
            exact hok.resolve_right (not_or.mpr ⟨huart, hvirtio⟩)
          simp only [if_neg huart, if_neg hvirtio, if_neg (not_not.mpr hzero)]
          exact ⟨_, rfl, ⟨rfl, rfl, by simp [hpc, Acked]⟩, Nat.zero_lt_succ _⟩
  | libIsr =>
      dsimp only
      by_cases hline : s.line uart0Irq = true
      · simp only [if_pos hline]
        refine ⟨_, rfl, ⟨rfl, rfl, by simp [hpc, Acked]⟩, ?_⟩
        simp
      · simp only [if_neg hline]
        exact ⟨_, rfl, ⟨rfl, rfl, by simp [hpc, Acked]⟩, Nat.lt_succ_self _⟩
  | readStatus => exact ⟨_, rfl, ⟨rfl, rfl, by simp [hpc, Acked]⟩, Nat.lt_succ_self _⟩
  | ack status =>
      refine ⟨_, rfl, ⟨rfl, rfl, by simp [hpc, Acked]⟩, ?_⟩
      have hle : loopRank (isrStep s.virtio.io) ≤ 10 := isrRank_le _ _
      refine lt_of_le_of_lt (handlerRank_diskIsrStep_le _) ?_
      show 2 + loopRank (isrStep s.virtio.io) < 13
      omega
  | diskIsr =>
      -- In the loop each step of `virtio_disk_isr` is a step down.
      have hisr : s.virtio.io.isr ≠ .idle := fun hidle => h.inside.mp hidle hpc
      have hlt := (driverInv_reachable h.driver).loopRank_lt hisr
      have hle : served (isrStep s.virtio.io) ≤ served s.virtio.io := by
        have hstep := served_isrStep s.virtio.io
        omega
      refine ⟨_, rfl, ⟨rfl, rfl, fun _ => ⟨?_, hle⟩⟩, ?_⟩
      · unfold External.diskIsrStep
        split <;> trivial
      · exact lt_of_le_of_lt (handlerRank_diskIsrStep_le _) (Nat.add_lt_add_left hlt 2)
  | unexpected irq =>
      rw [hpc] at hok
      exact hok.elim
  | complete irq =>
      exact ⟨_, rfl, ⟨rfl, rfl, fun _ => ⟨trivial, Nat.le_refl _⟩⟩, Nat.zero_lt_one⟩

/-- An interrupt, or a step of the handler, of a task in its call or of the
device. -/
def IrqOnward : IrqEvent ι β → Prop
  | .virtio e => Onward e
  | .raise | .forward _ | .trap | .handler => True
  | .configChange | .line _ _ | .drop _ => False

/-- The handler gets to its return. -/
theorem IrqInv.leave {s : IrqState ι β} (h : IrqInv s) :
    ∃ es s', (irqSystem ι β).Run s es s' ∧ (∀ e ∈ es, IrqOnward e) ∧
      (IrqInv s' ∧ HandlerKept s s') ∧ s'.pc = .out := by
  have hself : HandlerKept s s := ⟨rfl, rfl, fun hs => ⟨hs, Nat.le_refl _⟩⟩
  refine System.run_to_goal (M := irqSystem ι β) (I := fun s' => IrqInv s' ∧ HandlerKept s s')
    handlerRank (fun t ht hout => ?_) ⟨h, hself⟩
  obtain ⟨u, hstep, hhandled, hlt⟩ := ht.1.handler_next hout
  exact ⟨.handler, u, trivial, hstep, ⟨ht.1.handler hstep, ht.2.trans hhandled⟩, hlt⟩

/-! ### An entry is served -/

/-- Where the handler would help, there is an entry to consume. -/
theorem IrqInv.entry_of_lt {s : IrqState ι β} (h : IrqInv s) (hout : s.pc = .out)
    (hlt : served (isrStep s.virtio.io) < served s.virtio.io) :
    s.virtio.io.disk.usedIdx ≠ s.virtio.io.disk.usedRingIdx := by
  have hidle : s.virtio.io.isr = .idle := h.inside.mpr (by simp [hout])
  intro hcons
  have hloop : loopRank s.virtio.io ≤ loopRank (isrStep s.virtio.io) := by
    simp [loopRank, hidle, hcons, isrRank]
  have hstep := served_isrStep s.virtio.io
  omega

/-- The device gets its line up for an entry. -/
theorem IrqInv.lineUp {s : IrqState ι β} (h : IrqInv s) (hout : s.pc = .out)
    (hentry : s.virtio.io.disk.usedIdx ≠ s.virtio.io.disk.usedRingIdx) :
    ∃ es s', (irqSystem ι β).Run s es s' ∧ (∀ e ∈ es, IrqOnward e) ∧ IrqInv s' ∧
      s'.pc = .out ∧ s'.virtio = s.virtio ∧ s'.level virtioIrq = true := by
  rcases h.wake hentry with hraise | hbit | hin
  · have hstep : IrqStep s .raise
        { s with toRaise := false, intStatus := s.intStatus ||| 1#32 } := ⟨hraise, rfl⟩
    refine ⟨[.raise], _, System.Run.single hstep, fun e he => ?_, h.step hstep, hout, rfl,
      level_of_bit (by simp)⟩
    rw [List.mem_singleton.mp he]
    trivial
  · exact ⟨[], s, System.Run.nil s, by simp, h, hout, rfl, level_of_bit hbit⟩
  · rw [hout] at hin
    exact hin.elim

/-- With the line up the interrupt is taken, and the handler claims the
request of the block device. -/
theorem IrqInv.take {s : IrqState ι β} (h : IrqInv s) (hout : s.pc = .out)
    (hup : s.level virtioIrq = true) :
    ∃ es s', (irqSystem ι β).Run s es s' ∧ (∀ e ∈ es, IrqOnward e) ∧ IrqInv s' ∧
      s'.pc = .dispatch virtioIrq ∧ s'.virtio = s.virtio ∧ s'.toRaise = s.toRaise ∧
      s'.intStatus = s.intStatus ∧
      s'.plic.pending = Function.update s.plic.pending virtioIrq false := by
  have hclaimed : s.plic.claimed virtioIrq = false := by
    rw [Bool.eq_false_iff]
    intro htrue
    have hheld := ((h.claimed virtioIrq).mp htrue).2
    rw [hout] at hheld
    exact absurd hheld (by decide)
  -- The controller forwards the request, and it is the best.
  obtain ⟨p, hp⟩ : ∃ p : Plic, p = { s.plic with
      pending := Function.update s.plic.pending virtioIrq true } := ⟨_, rfl⟩
  have hforward : IrqStep s (.forward virtioIrq) { s with plic := p } := ⟨hup, hclaimed, by rw [hp]⟩
  have hconf := (h.step hforward).configured
  have hready : p.Ready virtioIrq :=
    (hconf.ready_iff virtioIrq).mpr ⟨Or.inr rfl, by simp [hp], by rw [hp]; exact hclaimed⟩
  have htrap : IrqStep { s with plic := p } .trap { s with plic := p, pc := .claim } :=
    ⟨hout, ⟨virtioIrq, hready⟩, rfl⟩
  obtain ⟨s', hs'⟩ : ∃ s' : IrqState ι β, s' =
      { s with plic := p.claim virtioIrq }.goto (.dispatch virtioIrq) [.claimed virtioIrq] :=
    ⟨_, rfl⟩
  have hclaim : IrqStep { s with plic := p, pc := .claim } .handler s' :=
    ⟨virtioIrq, hconf.best_virtio hready, hs'⟩
  have hstart : (irqSystem ι β).Run s [.forward virtioIrq, .trap]
      { s with plic := p, pc := .claim } := .snoc (.single hforward) htrap
  have hrun : (irqSystem ι β).Run s [.forward virtioIrq, .trap, .handler] s' :=
    .snoc hstart hclaim
  have hpending : (p.claim virtioIrq).pending = Function.update s.plic.pending virtioIrq false := by
    have hne : virtioIrq ≠ 0 := by decide
    rw [Plic.claim, if_neg hne, hp]
    exact Function.update_idem ..
  refine ⟨_, s', hrun, fun e he => ?_, ((h.step hforward).step htrap).step hclaim, ?_⟩
  · simp only [List.mem_cons, List.not_mem_nil, or_false] at he
    rcases he with rfl | rfl | rfl <;> trivial
  · rw [hs']
    exact ⟨rfl, rfl, rfl, rfl, hpending⟩

/-- Then it calls `virtio_disk_isr`, which gets into its loop. -/
theorem IrqInv.enter {s : IrqState ι β} (h : IrqInv s) (hpc : s.pc = .dispatch virtioIrq) :
    ∃ es s', (irqSystem ι β).Run s es s' ∧ (∀ e ∈ es, IrqOnward e) ∧ IrqInv s' ∧
      s'.pc = .diskIsr ∧ s'.virtio = { s.virtio with io := isrStep s.virtio.io } ∧
      s'.toRaise = s.toRaise ∧ s'.intStatus = s.intStatus &&& ~~~(s.intStatus &&& 3#32) ∧
      s'.plic = s.plic := by
  have hidle : s.virtio.io.isr = .idle := h.inside.mpr (by simp [hpc])
  have htest : (isrStep s.virtio.io).isr ≠ .idle := by simp [isrStep, hidle]
  -- The call of `virtio_disk_isr`, its read of the status, and the acknowledgement
  -- with the first test.
  obtain ⟨s₁, hs₁⟩ : ∃ s₁, s₁ = s.goto .readStatus [.virtioDiskIsr] := ⟨_, rfl⟩
  obtain ⟨s₂, hs₂⟩ : ∃ s₂, s₂ = s₁.goto (.ack (s.intStatus &&& 3#32)) [] := ⟨_, rfl⟩
  obtain ⟨s₃, hs₃⟩ : ∃ s₃, s₃ = External.diskIsrStep
      { s₂ with intStatus := s₂.intStatus &&& ~~~(s.intStatus &&& 3#32) } := ⟨_, rfl⟩
  have hcall : IrqStep s .handler s₁ := by
    show HandlerStep s s₁
    rw [HandlerStep, hpc]
    exact hs₁
  have hread : IrqStep s₁ .handler s₂ := by
    rw [hs₂, hs₁]
    rfl
  have hack : IrqStep s₂ .handler s₃ := by
    rw [hs₃, hs₂]
    rfl
  have hvirtio : s₂.virtio = s.virtio := by rw [hs₂, hs₁]; rfl
  have hrun : (irqSystem ι β).Run s [.handler, .handler, .handler] s₃ :=
    .snoc (.snoc (.single hcall) hread) hack
  refine ⟨_, s₃, hrun, fun e he => ?_, ((h.step hcall).step hread).step hack, ?_, ?_, ?_⟩
  · simp only [List.mem_cons, List.not_mem_nil, or_false] at he
    rcases he with rfl | rfl | rfl <;> trivial
  · rw [hs₃, External.diskIsrStep, hvirtio]
    exact if_neg htest
  · rw [hs₃, External.diskIsrStep, hvirtio]
  · rw [hs₃, hs₂, hs₁]
    exact ⟨rfl, rfl, rfl⟩

/-- With an entry to consume, the interrupt for it can be taken. It consumes
the entry. -/
theorem IrqInv.serve {s : IrqState ι β} (h : IrqInv s) (hout : s.pc = .out)
    (hlt : served (isrStep s.virtio.io) < served s.virtio.io) :
    ∃ es s', (irqSystem ι β).Run s es s' ∧ (∀ e ∈ es, IrqOnward e) ∧ IrqInv s' ∧ s'.pc = .out ∧
      s'.virtio.task = s.virtio.task ∧ s'.virtio.vdiskLock = s.virtio.vdiskLock ∧
      served s'.virtio.io < served s.virtio.io := by
  -- The line gets up, the request is claimed, the handler gets into its loop and
  -- out of it.
  obtain ⟨es₁, s₁, hrun₁, hes₁, hinv₁, hout₁, hvirtio₁, hup⟩ :=
    h.lineUp hout (h.entry_of_lt hout hlt)
  obtain ⟨es₂, s₂, hrun₂, hes₂, hinv₂, hpc₂, hvirtio₂, -⟩ := hinv₁.take hout₁ hup
  obtain ⟨es₃, s₃, hrun₃, hes₃, hinv₃, hpc₃, hvirtio₃, -⟩ := hinv₂.enter hpc₂
  obtain ⟨es₄, s₄, hrun₄, hes₄, ⟨hinv₄, hhandled⟩, hout₄⟩ := hinv₃.leave
  obtain ⟨-, hle⟩ := hhandled.acked (by rw [hpc₃]; trivial)
  rw [hvirtio₂, hvirtio₁] at hvirtio₃
  refine ⟨es₁ ++ (es₂ ++ (es₃ ++ es₄)), s₄, hrun₁.append (hrun₂.append (hrun₃.append hrun₄)),
    fun e he => ?_, hinv₄, hout₄, ?_, ?_, ?_⟩
  · simp only [List.mem_append] at he
    rcases he with he | he | he | he
    · exact hes₁ e he
    · exact hes₂ e he
    · exact hes₃ e he
    · exact hes₄ e he
  · rw [hhandled.task, hvirtio₃]
  · rw [hhandled.lock, hvirtio₃]
  · rw [hvirtio₃] at hle
    exact lt_of_le_of_lt hle hlt

/-! ### Each call returns -/

/-- Task `t` drives its call `c`, the other tasks are as in `task`, and the
handler is out. -/
structure DrivenOut (task : ι → RwTask β) (t : ι) (c : RwCall β) (s : IrqState ι β) : Prop where
  inv : IrqInv s
  out : s.pc = .out
  driven : DrivenBy task t c s.virtio

omit [DecidableEq ι] in
/-- Where the tasks stand still the distance is that of device and handler. -/
theorem DrivenBy.distance_lt {task : ι → RwTask β} {t : ι} {c : RwCall β} {s s' : VirtioState ι β}
    (h : DrivenBy task t c s) (htask : s'.task = s.task) (hlt : served s'.io < served s.io) :
    distance t s' < distance t s := by
  obtain ⟨pc, ht, -⟩ := h.running
  unfold distance
  rw [htask, ht]
  exact Nat.add_lt_add_left hlt _

/-- A driving task gets to `lock_free`. -/
theorem DrivenOut.run {task : ι → RwTask β} {t : ι} {c : RwCall β} {s : IrqState ι β}
    (h : DrivenOut task t c s) :
    ∃ es s', (irqSystem ι β).Run s es s' ∧ (∀ e ∈ es, IrqOnward e) ∧ DrivenOut task t c s' ∧
      s'.virtio.task t = .running c .unlock := by
  refine System.runs_to_goal (M := irqSystem ι β) (fun s => distance t s.virtio)
    (fun s h hgoal => ?_) h
  obtain ⟨hinv, hout, hdriven⟩ := h
  -- The next move is the device's, the handler's, or the task's own.
  rcases hdriven.onward fun hend => hgoal hend.1 with
    ⟨m, v, hdev, hnext, hlt⟩ | ⟨hlt, -, -⟩ | ⟨v, htask, hnext, hlt⟩
  · have hstep : IrqStep s (.virtio (.device m))
        { s with virtio := v, toRaise := s.toRaise || countsEntry (.device m : VirtioEvent ι β) } :=
      ⟨by simp, Or.inl hout, v, hdev, rfl⟩
    refine ⟨[.virtio (.device m)], _, System.Run.single hstep, fun e he => ?_,
      ⟨hinv.step hstep, hout, hnext⟩, hlt⟩
    rw [List.mem_singleton.mp he]
    trivial
  · -- An entry is in the used ring: the interrupt for it comes.
    obtain ⟨es, s', hrun, hes, hinv', hout', htask, -, hless⟩ := hinv.serve hout hlt
    obtain ⟨-, ⟨pc, ht, hacq⟩, hothers⟩ := id hdriven
    refine ⟨es, s', hrun, hes, ⟨hinv', hout', driverInv_reachable hinv'.driver, ?_, ?_⟩,
      hdriven.distance_lt htask hless⟩
    · rw [htask]
      exact ⟨pc, ht, hacq⟩
    · rw [htask]
      exact hothers
  · have hstep : IrqStep s (.virtio (.task t))
        { s with virtio := v, toRaise := s.toRaise || countsEntry (.task t : VirtioEvent ι β) } :=
      ⟨by simp, Or.inl hout, v, htask, rfl⟩
    refine ⟨[.virtio (.task t)], _, System.Run.single hstep, fun e he => ?_,
      ⟨hinv.step hstep, hout, hnext⟩, hlt⟩
    rw [List.mem_singleton.mp he]
    trivial

/-- A driving task returns from its call, and the lock is free. -/
theorem IrqInv.finish {s : IrqState ι β} (h : IrqInv s) (hout : s.pc = .out) {t : ι}
    {c : RwCall β} {pc : RwPc} (ht : s.virtio.task t = .running c pc) (hacq : pc ≠ .acquire) :
    ∃ es s', (irqSystem ι β).Run s es s' ∧ (∀ e ∈ es, IrqOnward e) ∧ IrqInv s' ∧
      s'.pc = .out ∧ c.id ∈ s'.virtio.returned ∧ s'.virtio.vdiskLock = 0#32 ∧
      s'.virtio.task t = .outside ∧ ∀ u, u ≠ t → s'.virtio.task u = s.virtio.task u := by
  have hdriven : DrivenOut s.virtio.task t c s :=
    ⟨h, hout, driverInv_reachable h.driver, ⟨pc, ht, hacq⟩, fun _ _ => rfl⟩
  obtain ⟨es, s', hrun, hes, ⟨hinv', hout', hdriven'⟩, ht'⟩ := hdriven.run
  have hisr : s'.virtio.io.isr = .idle := hinv'.inside.mpr (by simp [hout'])
  have hstep : IrqStep s' (.virtio (.task t)) { s' with
      virtio := taskStep s'.virtio t c .unlock
      toRaise := s'.toRaise || countsEntry (.task t : VirtioEvent ι β) } :=
    ⟨by simp, Or.inl hout', _, ⟨hisr, c, .unlock, ht', rfl⟩, rfl⟩
  have hleave : (irqSystem ι β).Run s (es ++ [.virtio (.task t)]) _ := .snoc hrun hstep
  refine ⟨_, _, hleave, fun e he => ?_, hinv'.step hstep, hout', List.mem_cons_self, rfl,
    Function.update_self .., fun u hu => ?_⟩
  · rcases List.mem_append.mp he with he | he
    · exact hes e he
    · rw [List.mem_singleton.mp he]
      trivial
  · exact (Function.update_of_ne hu ..).trans (hdriven'.others u hu)

/-- The driver cannot get stuck on an interrupt either: from each reachable
state, and for each call under way, a run leads to its return that enters
`virtio_disk_isr` by interrupts taken for the line of the device alone. -/
theorem externalHandler_progress (s : IrqState ι β) (hs : (irqSystem ι β).Reachable s)
    (t : ι) (c : RwCall β) (pc : RwPc) (ht : s.virtio.task t = .running c pc) :
    ∃ es s', (irqSystem ι β).Run s es s' ∧ (∀ e ∈ es, IrqOnward e) ∧
      c.id ∈ s'.virtio.returned := by
  obtain ⟨es₀, s₀, hrun₀, hes₀, ⟨hinv₀, hhandled⟩, hout₀⟩ := (irqInv_reachable hs).leave
  have ht₀ : s₀.virtio.task t = .running c pc := by rw [hhandled.task, ht]
  by_cases hacq : pc = .acquire
  · subst hacq
    -- First the lock gets free: nobody drives, or the one who does returns.
    have hfree : ∃ es s₁, (irqSystem ι β).Run s₀ es s₁ ∧ (∀ e ∈ es, IrqOnward e) ∧ IrqInv s₁ ∧
        s₁.pc = .out ∧ s₁.virtio.vdiskLock = 0#32 ∧ s₁.virtio.task t = .running c .acquire := by
      rcases (driverInv_reachable hinv₀.driver).driving_cases with
        hnone | ⟨u, d, qc, hu, hqc, -⟩
      · have hlock : s₀.virtio.vdiskLock = 0#32 := by
          by_contra hne
          obtain ⟨u, hu⟩ := lockHeld_reachable hinv₀.driver hne
          exact hnone u hu
        exact ⟨[], s₀, System.Run.nil s₀, by simp, hinv₀, hout₀, hlock, ht₀⟩
      · obtain ⟨es, s₁, hrun, hes, hinv₁, hout₁, -, hlock, -, hothers⟩ :=
          hinv₀.finish hout₀ hu hqc
        have htu : t ≠ u := by
          rintro rfl
          exact hqc (RwTask.running.inj (hu.symm.trans ht₀)).2
        exact ⟨es, s₁, hrun, hes, hinv₁, hout₁, hlock, (hothers t htu).trans ht₀⟩
    obtain ⟨es₁, s₁, hrun₁, hes₁, hinv₁, hout₁, hlock, ht₁⟩ := hfree
    -- Then the task takes it and drives.
    have hisr : s₁.virtio.io.isr = .idle := hinv₁.inside.mpr (by simp [hout₁])
    have hstep : IrqStep s₁ (.virtio (.task t)) { s₁ with
        virtio := taskStep s₁.virtio t c .acquire
        toRaise := s₁.toRaise || countsEntry (.task t : VirtioEvent ι β) } :=
      ⟨by simp, Or.inl hout₁, _, ⟨hisr, c, .acquire, ht₁, rfl⟩, rfl⟩
    have ht₂ : (taskStep s₁.virtio t c .acquire).task t = .running c (.allocTest [] 0) := by
      simp [taskStep, hlock]
    obtain ⟨es₂, s₂, hrun₂, hes₂, -, -, hret, -⟩ :=
      (hinv₁.step hstep).finish hout₁ ht₂ (by simp)
    have htake : (irqSystem ι β).Run s₁ [.virtio (.task t)] _ := .single hstep
    refine ⟨es₀ ++ (es₁ ++ ([.virtio (.task t)] ++ es₂)), s₂,
      hrun₀.append (hrun₁.append (htake.append hrun₂)), fun e he => ?_, hret⟩
    simp only [List.mem_append, List.mem_singleton] at he
    rcases he with he | he | rfl | he
    · exact hes₀ e he
    · exact hes₁ e he
    · trivial
    · exact hes₂ e he
  · obtain ⟨es, s', hrun, hes, -, -, hret, -⟩ := hinv₀.finish hout₀ ht₀ hacq
    refine ⟨es₀ ++ es, s', hrun₀.append hrun, fun e he => ?_, hret⟩
    rcases List.mem_append.mp he with he | he
    · exact hes₀ e he
    · exact hes e he

end Steps

/-! ### A byte while a call waits -/

/-- The system after `plic_init` and `virtio_disk_init`. -/
def irqReset : IrqState Bool Unit where
  virtio := diskReset
  intStatus := 0#32
  toRaise := false
  line := fun _ => false
  plic := plicInit ⟨fun _ => 0#32, fun _ => false, 0#32, fun _ => false, fun _ => false⟩
  pc := .out
  log := []

/-- The request of the UART is pending. -/
def bytePlic : Plic :=
  { irqReset.plic with pending := Function.update irqReset.plic.pending uart0Irq true }

/-- A task has called `virtio_disk_rw`, then a byte came in, and the handler
is in `lib_isr`. -/
def byteArrived : IrqState Bool Unit :=
  { irqReset with
    virtio := { diskReset with
      task := Function.update diskReset.task false (.running ⟨(), true, 1#64, 0⟩ .acquire)
      nextCall := 1 }
    line := Function.update irqReset.line uart0Irq true
    plic := bytePlic.claim uart0Irq
    pc := .libIsr
    log := [.claimed uart0Irq, .libIsr] }

/-- The state is one that the system reaches. -/
theorem byteArrived_reachable : (irqSystem Bool Unit).Reachable byteArrived := by
  have hinit : (irqSystem Bool Unit).init irqReset := by
    refine ⟨?_, rfl, rfl, rfl, rfl, _, fun _ _ => rfl, fun _ => rfl, rfl⟩
    exact ⟨fun _ _ => rfl, fun _ => rfl, rfl, rfl, rfl, rfl, rfl, rfl, fun _ => rfl, rfl,
      fun _ => rfl, rfl, rfl⟩
  -- Only the UART's request is pending.
  have hpending : ∀ id, bytePlic.Ready id → id = uart0Irq := by
    rintro id ⟨-, hpend, -⟩
    by_contra hne
    simp [bytePlic, Function.update_of_ne hne, irqReset, plicInit, Plic.setEnable] at hpend
  have hready : bytePlic.Ready uart0Irq := by
    refine ⟨by decide, rfl, rfl, rfl, ?_⟩
    show (0#32 : Word) < 1#32
    decide
  have hbest : bytePlic.Best uart0Irq :=
    Or.inr ⟨hready, fun id hid => Or.inr (hpending id hid ▸ ⟨rfl, Nat.le_refl _⟩)⟩
  have hcall := (System.Reachable.of_init hinit).step (e := IrqEvent.virtio (.call false () true))
    ⟨by simp, Or.inl rfl, _, ⟨rfl, rfl, rfl⟩, rfl⟩
  have hline := hcall.step (e := IrqEvent.line uart0Irq true) rfl
  have hforward := hline.step (e := IrqEvent.forward uart0Irq) ⟨rfl, rfl, rfl⟩
  have htrap := hforward.step (e := IrqEvent.trap) ⟨rfl, ⟨uart0Irq, hready⟩, rfl⟩
  have hclaim := htrap.step (e := IrqEvent.handler) ⟨uart0Irq, hbest, rfl⟩
  exact hclaim.step (e := IrqEvent.handler) rfl

/-- The main result while a byte is read. -/
theorem byteArrived_safe :
    ∃ rounds : List Nat, (∀ irq ∈ rounds, irq = uart0Irq ∨ irq = virtioIrq) ∧
      [.claimed uart0Irq, .libIsr] = rounds.flatMap service ++ underWay .libIsr :=
  (externalHandler_safe byteArrived byteArrived_reachable).2.1

/-- And the call under way still returns. -/
theorem byteArrived_progress :
    ∃ es s', (irqSystem Bool Unit).Run byteArrived es s' ∧ (∀ e ∈ es, IrqOnward e) ∧
      0 ∈ s'.virtio.returned :=
  externalHandler_progress byteArrived byteArrived_reachable false ⟨(), true, 1#64, 0⟩ .acquire rfl

end MiniRiscvOs.Proofs
