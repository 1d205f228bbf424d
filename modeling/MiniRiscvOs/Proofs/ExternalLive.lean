import MiniRiscvOs.Proofs.External
import MiniRiscvOs.Proofs.VirtioLive

/-!
# `MiniRiscvOs.Proofs.ExternalLive`: the interrupts on infinite runs

`Proofs.VirtioLive` asks that the handler of the block driver does not stop while
there is an entry in the used ring. With the interrupts around the driver that is a
result, and not an assumption (`irq_keepsOn`). It rests on the device that raises
its line, on the controller that forwards the request, on the hart that takes the
interrupt and on the code of `external_handler` (`IrqAgent`). Bytes of the UART may
come at any time, as long as `lib_isr` finds an end to them.

* `wakeStage` is how far an entry is from `virtio_disk_isr`. Requests of the UART
  in between do not put it back, since `plic_claim` reads that of the block device
  first.
* A run of the whole is one of `virtioSystem` among other things (`virtioPath`). So
  the calls of `virtio_disk_rw` return (`externalHandler_live`).
-/

set_option autoImplicit false

namespace MiniRiscvOs.Proofs

open MiniRiscvOs.Lib
open MiniRiscvOs.Kernel
open MiniRiscvOs.Kernel.External

variable {ι β : Type}

/-! ### Who keeps the interrupts going -/

/-- What has to go on for an entry to be consumed. -/
inductive IrqAgent where
  /-- The notification of the device. -/
  | raise
  /-- The controller, for the request of the block device. -/
  | forward
  | trap
  /-- `external_handler`. -/
  | handler
  /-- The loop of `lib_isr` finds no further byte. -/
  | lastByte

/-- The step is one of the agent. -/
def IrqAgent.Acts : IrqAgent → IrqState ι β → IrqEvent ι β → Prop
  | .raise, _, e => e = .raise
  | .forward, _, e => e = .forward virtioIrq
  | .trap, _, e => e = .trap
  | .handler, _, e => e = .handler
  | .lastByte, s, e => e = .handler ∧ s.line uart0Irq = false

section Agents

variable [DecidableEq ι] [DecidableEq β]

/-- The agent has something to do. -/
def IrqAgent.Busy : IrqAgent → IrqState ι β → Prop
  | .raise, s => s.toRaise = true
  | .forward, s => s.level virtioIrq = true ∧ s.plic.claimed virtioIrq = false ∧
      s.plic.pending virtioIrq = false
  | .trap, s => s.pc = .out ∧ ∃ id, s.plic.Ready id
  | .handler, s => s.pc ≠ .out
  | .lastByte, s => s.pc = .libIsr

end Agents

/-! ### From the entry to the handler -/

/-- How far an entry of the used ring is from the loop of `virtio_disk_isr`. -/
inductive WakeStage where
  /-- The store to `INTERRUPT_ACK` is next. -/
  | acking
  | reading
  /-- The request is claimed. -/
  | claimed
  /-- The request is pending. -/
  | toClaim
  | toTrap
  /-- The request is pending, and `external_handler` is busy with the UART. -/
  | completingByte
  | readingByte
  | dispatchingByte
  /-- The line is up. -/
  | toForward
  /-- The line is up, and an earlier request is not yet complete. -/
  | completing
  | toRaise

/-- The nearer, the smaller. -/
def WakeStage.rank : WakeStage → Nat
  | .acking => 1
  | .reading => 2
  | .claimed => 3
  | .toClaim => 4
  | .toTrap => 5
  | .completingByte => 6
  | .readingByte => 7
  | .dispatchingByte => 8
  | .toForward => 9
  | .completing => 10
  | .toRaise => 11

/-- Who leads to the next stage. -/
def WakeStage.agent : WakeStage → IrqAgent
  | .toRaise => .raise
  | .toForward => .forward
  | .toTrap => .trap
  | .readingByte => .lastByte
  | .acking | .reading | .claimed | .toClaim | .completingByte | .dispatchingByte | .completing =>
      .handler

/-- What comes first: the line, the request, and then the rest. -/
def WakeStage.after (bit pending : Bool) (stage : WakeStage) : WakeStage :=
  if bit = false then .toRaise else if pending = false then .toForward else stage

/-- The stage by program point, bit 0 of the status, and the request. -/
def stageOf (bit pending : Bool) : ExtPc → WakeStage
  | .ack _ | .diskIsr => .acking
  | .readStatus => .reading
  | .dispatch irq =>
      if irq = virtioIrq then .claimed else .after bit pending .dispatchingByte
  | .complete irq =>
      if irq = virtioIrq then (if bit = false then .toRaise else .completing)
      else .after bit pending .completingByte
  | .libIsr | .unexpected _ => .after bit pending .readingByte
  | .claim => .after bit pending .toClaim
  | .out => .after bit pending .toTrap

/-- The stage of the state. -/
def wakeStage (s : IrqState ι β) : WakeStage :=
  stageOf (s.intStatus.getLsbD 0) (s.plic.pending virtioIrq) s.pc

/-- From `s` to `t` an entry is nearer to the handler, or as near as it was and the
agent has made no step. -/
def Nearer (s : IrqState ι β) (e : IrqEvent ι β) (t : IrqState ι β) : Prop :=
  (wakeStage t).rank < (wakeStage s).rank ∨
    (wakeStage t = wakeStage s ∧ ¬ (wakeStage s).agent.Acts s e)

/-- Only where it leads on, the notification counts. -/
theorem WakeStage.eq_toRaise {s : IrqState ι β} {stage : WakeStage}
    (h : stage.agent.Acts s .raise) : stage = .toRaise := by
  cases stage with
  | toRaise => rfl
  | readingByte => cases h.1
  | _ => cases h

/-- So does the request that is forwarded. -/
theorem WakeStage.eq_toForward {s : IrqState ι β} {stage : WakeStage}
    (h : stage.agent.Acts s (.forward virtioIrq)) : stage = .toForward := by
  cases stage with
  | toForward => rfl
  | readingByte => cases h.1
  | _ => cases h

/-- The line that goes up and the request that comes take nothing back. -/
theorem WakeStage.after_up {bit bit' pending pending' : Bool} {stage : WakeStage}
    (hstage : stage.rank < WakeStage.toForward.rank) (hbit : bit = true → bit' = true)
    (hpending : bit = true → pending = true → pending' = true) :
    WakeStage.after bit' pending' stage = WakeStage.after bit pending stage ∨
      (WakeStage.after bit' pending' stage).rank < (WakeStage.after bit pending stage).rank := by
  cases bit with
  | false =>
      cases bit' with
      | false => exact Or.inl rfl
      -- The line comes up: the controller's turn, or past it if the request is
      -- there.
      | true =>
          right
          cases pending' with
          | false => exact show (9 : Nat) < 11 by decide
          | true => exact Nat.lt_trans hstage (show (9 : Nat) < 11 by decide)
  | true =>
      obtain rfl := hbit rfl
      cases pending with
      | false =>
          cases pending' with
          | false => exact Or.inl rfl
          | true => exact Or.inr hstage
      | true =>
          obtain rfl := hpending rfl rfl
          exact Or.inl rfl

/-- With more bits up the stage is the same or nearer to the loop. -/
theorem stageOf_up {bit bit' pending pending' : Bool} (pc : ExtPc) (hbit : bit = true → bit' = true)
    (hpending : bit = true → pending = true → pending' = true) :
    stageOf bit' pending' pc = stageOf bit pending pc ∨
      (stageOf bit' pending' pc).rank < (stageOf bit pending pc).rank := by
  cases pc with
  | ack _ | diskIsr | readStatus => exact Or.inl rfl
  | dispatch irq =>
      simp only [stageOf]
      split
      · exact Or.inl rfl
      · exact WakeStage.after_up (by decide) hbit hpending
  | complete irq =>
      simp only [stageOf]
      split
      · cases bit with
        | false =>
            cases bit' with
            | false => exact Or.inl rfl
            | true => exact Or.inr (Nat.lt_succ_self _)
        | true =>
            obtain rfl := hbit rfl
            exact Or.inl rfl
      · exact WakeStage.after_up (by decide) hbit hpending
  | libIsr | unexpected _ | claim | out => exact WakeStage.after_up (by decide) hbit hpending

/-- With the line up the device is not waited for. -/
theorem stageOf_bit_rank (pending : Bool) (pc : ExtPc) :
    (stageOf true pending pc).rank < WakeStage.toRaise.rank := by
  -- With the bit the stage is `toForward` at the most.
  have hafter : ∀ stage : WakeStage, stage.rank < 9 →
      (WakeStage.after true pending stage).rank < 11 := by
    intro stage hstage
    cases pending with
    | false => exact show (9 : Nat) < 11 by decide
    | true => exact Nat.lt_trans hstage (show (9 : Nat) < 11 by decide)
  cases pc with
  | ack _ | diskIsr => exact show (1 : Nat) < 11 by decide
  | readStatus => exact show (2 : Nat) < 11 by decide
  | dispatch irq =>
      simp only [stageOf]
      split
      · exact show (3 : Nat) < 11 by decide
      · exact hafter _ (by decide)
  | complete irq =>
      simp only [stageOf]
      split
      · exact show (10 : Nat) < 11 by decide
      · exact hafter _ (by decide)
  | libIsr | unexpected _ | claim | out => exact hafter _ (by decide)

/-- With the request pending the controller is not waited for. -/
theorem stageOf_pending_rank {pending : Bool} {pc : ExtPc} {bit : Bool}
    (h : stageOf bit pending pc = .toForward) :
    (stageOf bit true pc).rank < WakeStage.toForward.rank := by
  -- With the request too it is one of the handler, the hart or the bytes.
  have hafter : ∀ stage : WakeStage, stage.rank < 9 →
      WakeStage.after bit pending stage = .toForward →
        (WakeStage.after bit true stage).rank < 9 := by
    intro stage hstage heq
    cases bit with
    | false => cases heq
    | true => exact hstage
  cases pc with
  | ack _ | diskIsr | readStatus => cases h
  | dispatch irq =>
      simp only [stageOf] at h ⊢
      split
      · exact show (3 : Nat) < 9 by decide
      · rename_i hirq
        rw [if_neg hirq] at h
        exact hafter _ (by decide) h
  | complete irq =>
      simp only [stageOf] at h ⊢
      split
      · rename_i hirq
        rw [if_pos hirq] at h
        cases bit <;> cases h
      · rename_i hirq
        rw [if_neg hirq] at h
        exact hafter _ (by decide) h
  | libIsr | unexpected _ | claim | out => exact hafter _ (by decide) h

/-- A step of the handler to the next stage. Before the line is up, and before the
request is forwarded, it counts for nothing. -/
theorem WakeStage.after_next (bit pending : Bool) {stage stage' : WakeStage}
    (h : stage'.rank < stage.rank) :
    (WakeStage.after bit pending stage').rank < (WakeStage.after bit pending stage).rank ∨
      (WakeStage.after bit pending stage' = WakeStage.after bit pending stage ∧
        ((WakeStage.after bit pending stage).agent = .raise ∨
          (WakeStage.after bit pending stage).agent = .forward)) := by
  cases bit with
  | false => exact Or.inr ⟨rfl, Or.inl rfl⟩
  | true =>
      cases pending with
      | false => exact Or.inr ⟨rfl, Or.inr rfl⟩
      | true => exact Or.inl h

section Steps

variable [DecidableEq ι] [DecidableEq β] {s s' : IrqState ι β} {e : IrqEvent ι β}

omit [DecidableEq ι] [DecidableEq β] in
/-- Who is no agent takes nothing back. -/
theorem nearer_of_up (hpc : s'.pc = s.pc)
    (hbit : s.intStatus.getLsbD 0 = true → s'.intStatus.getLsbD 0 = true)
    (hpending : s.intStatus.getLsbD 0 = true → s.plic.pending virtioIrq = true →
      s'.plic.pending virtioIrq = true)
    (hacts : ¬ (wakeStage s).agent.Acts s e) : Nearer s e s' := by
  have hup := stageOf_up s.pc hbit hpending
  unfold Nearer wakeStage
  rw [hpc]
  rcases hup with heq | hlt
  · exact Or.inr ⟨heq, hacts⟩
  · exact Or.inl hlt

omit [DecidableEq ι] [DecidableEq β] in
/-- The notification of the device. -/
theorem nearer_raise (hpc : s'.pc = s.pc) (hbit : s'.intStatus.getLsbD 0 = true)
    (hplic : s'.plic = s.plic) : Nearer s .raise s' := by
  by_cases hstage : wakeStage s = .toRaise
  · left
    rw [hstage, wakeStage, hbit]
    exact stageOf_bit_rank _ _
  · exact nearer_of_up hpc (fun _ => hbit) (fun _ h => hplic ▸ h) fun hacts =>
      hstage (WakeStage.eq_toRaise hacts)

omit [DecidableEq ι] [DecidableEq β] in
/-- The controller forwards the request of the block device. -/
theorem nearer_forward (hpc : s'.pc = s.pc) (hbit : s'.intStatus = s.intStatus)
    (hpending : s'.plic.pending virtioIrq = true) : Nearer s (.forward virtioIrq) s' := by
  by_cases hstage : wakeStage s = .toForward
  · left
    rw [hstage, wakeStage, hpc, hbit, hpending]
    exact stageOf_pending_rank hstage
  · exact nearer_of_up hpc (fun h => hbit ▸ h) (fun _ _ => hpending) fun hacts =>
      hstage (WakeStage.eq_toForward hacts)

omit [DecidableEq ι] [DecidableEq β] in
/-- A step of the handler or a trap between two program points outside of
`virtio_disk_isr`. -/
theorem nearer_next (stage stage' : WakeStage) (hlt : stage'.rank < stage.rank)
    (hstage : wakeStage s =
      .after (s.intStatus.getLsbD 0) (s.plic.pending virtioIrq) stage)
    (hstage' : wakeStage s' =
      .after (s.intStatus.getLsbD 0) (s.plic.pending virtioIrq) stage')
    (he : e = .handler ∨ e = .trap) : Nearer s e s' := by
  unfold Nearer
  rw [hstage, hstage']
  rcases WakeStage.after_next (s.intStatus.getLsbD 0) (s.plic.pending virtioIrq) hlt with
    hless | ⟨heq, hraise | hforward⟩
  · exact Or.inl hless
  · rw [hraise]
    exact Or.inr ⟨heq, fun hacts => by rcases he with rfl | rfl <;> cases hacts⟩
  · rw [hforward]
    exact Or.inr ⟨heq, fun hacts => by rcases he with rfl | rfl <;> cases hacts⟩

/-- `plic_claim` reads the request of the block device if it is ready. -/
theorem Configured.best_eq_virtio {p : Plic} (h : Configured p) (hready : p.Ready virtioIrq)
    {irq : Nat} (hbest : p.Best irq) : irq = virtioIrq := by
  rcases hbest with ⟨-, hnone⟩ | ⟨hirq, hfirst⟩
  · exact absurd hready (hnone virtioIrq)
  · rcases ((h.ready_iff irq).mp hirq).1 with rfl | rfl
    · -- The two have the same priority, and that of the UART is the greater number.
      rcases hfirst virtioIrq hready with hlt | ⟨-, hle⟩
      · rw [h.uart, h.virtio] at hlt
        exact absurd hlt (by decide)
      · exact absurd hle (by decide)
    · rfl

/-- What the handler has not claimed is not claimed. -/
theorem IrqInv.not_claimed (h : IrqInv s) (hheld : heldIrq s.pc ≠ virtioIrq) :
    s.plic.claimed virtioIrq = false := by
  rw [Bool.eq_false_iff]
  exact fun htrue => hheld ((h.claimed virtioIrq).mp htrue).2.symm

/-- `plic_claim`. -/
theorem IrqInv.nearer_claim (h : IrqInv s) (hpc : s.pc = .claim) {irq : Nat}
    (hbest : s.plic.Best irq) (hpc' : s'.pc = .dispatch irq) (hbit : s'.intStatus = s.intStatus)
    (hplic : s'.plic = s.plic.claim irq) : Nearer s .handler s' := by
  have hstage : wakeStage s =
      .after (s.intStatus.getLsbD 0) (s.plic.pending virtioIrq) .toClaim := by
    rw [wakeStage, hpc]
    rfl
  by_cases hirq : irq = virtioIrq
  · -- The device's own request is claimed.
    left
    have hstage' : wakeStage s' = .claimed := by
      rw [wakeStage, hpc', stageOf, if_pos hirq]
    rw [hstage, hstage']
    cases s.intStatus.getLsbD 0 <;> cases s.plic.pending virtioIrq <;>
      simp [WakeStage.after, WakeStage.rank]
  · -- A byte of the UART was best, so the device's request was not ready.
    have hpending : s.plic.pending virtioIrq = false := by
      rw [Bool.eq_false_iff]
      intro htrue
      have hclaimed := h.not_claimed (by rw [hpc]; decide)
      exact hirq (h.configured.best_eq_virtio
        ((h.configured.ready_iff virtioIrq).mpr ⟨Or.inr rfl, htrue, hclaimed⟩) hbest)
    have hpending' : s'.plic.pending virtioIrq = false := by
      rw [hplic, Plic.claim]
      split
      · exact hpending
      · show Function.update s.plic.pending irq false virtioIrq = false
        rw [Function.update_of_ne (Ne.symm hirq), hpending]
    have hstage' : wakeStage s' = .after (s.intStatus.getLsbD 0) false .dispatchingByte := by
      rw [wakeStage, hpc', hbit, hpending', stageOf, if_neg hirq]
    right
    -- The hart is busy with the byte, and the agent at this stage is the
    -- controller.
    rw [hstage, hstage', hpending]
    cases s.intStatus.getLsbD 0 <;> exact ⟨rfl, fun hacts => by cases hacts⟩

/-- A step of the handler. -/
theorem IrqInv.nearer_handler (h : IrqInv s) (hidle : s.virtio.io.isr = .idle)
    (hstep : HandlerStep s s') : s'.virtio.io.isr ≠ .idle ∨ Nearer s .handler s' := by
  have hok := h.pc
  have hinside := h.inside
  unfold HandlerStep at hstep
  cases hpc : s.pc with
  | out =>
      rw [hpc] at hstep
      exact hstep.elim
  | diskIsr => exact absurd hpc (hinside.mp hidle)
  | unexpected irq =>
      rw [hpc] at hok
      exact hok.elim
  -- Here the handler gets into its loop.
  | ack status =>
      rw [hpc] at hstep
      subst hstep
      left
      show (isrStep s.virtio.io).isr ≠ .idle
      simp [isrStep, hidle]
  | readStatus =>
      rw [hpc] at hstep
      subst hstep
      right
      left
      rw [wakeStage, wakeStage, hpc]
      exact Nat.lt_succ_self _
  | claim =>
      rw [hpc] at hstep
      obtain ⟨irq, hbest, rfl⟩ := hstep
      exact Or.inr (h.nearer_claim hpc hbest rfl rfl rfl)
  | dispatch irq =>
      rw [hpc] at hstep hok
      right
      rcases hok with rfl | rfl | rfl
      · obtain rfl : s' = s.goto .out [] := hstep
        exact nearer_next .dispatchingByte .toTrap (by decide) (by rw [wakeStage, hpc]; rfl) rfl
          (Or.inl rfl)
      · obtain rfl : s' = s.goto .libIsr [.libIsr] := hstep
        exact nearer_next .dispatchingByte .readingByte (by decide) (by rw [wakeStage, hpc]; rfl)
          rfl (Or.inl rfl)
      · obtain rfl : s' = s.goto .readStatus [.virtioDiskIsr] := hstep
        left
        rw [wakeStage, wakeStage, hpc]
        exact Nat.lt_succ_self _
  | libIsr =>
      rw [hpc] at hstep
      dsimp only at hstep
      right
      split at hstep
      · rename_i hline
        subst hstep
        -- More bytes are left. Only the last read of them counts as a step on.
        refine nearer_of_up hpc.symm id (fun _ => id) ?_
        rw [wakeStage, hpc]
        cases s.intStatus.getLsbD 0 with
        | false => exact fun hacts => by cases hacts
        | true =>
            cases s.plic.pending virtioIrq with
            | false => exact fun hacts => by cases hacts
            | true => exact fun hacts => Bool.noConfusion (hline.symm.trans hacts.2)
      · subst hstep
        exact nearer_next .readingByte .completingByte (by decide) (by rw [wakeStage, hpc]; rfl)
          rfl (Or.inl rfl)
  | complete irq =>
      rw [hpc] at hstep hok
      right
      rcases hok with rfl | rfl
      · exact nearer_next .completingByte .toTrap (by decide) (by rw [wakeStage, hpc]; rfl)
          (by rw [hstep]; rfl) (Or.inl rfl)
      · -- The completion of the device's own request: the next one can be
        -- forwarded.
        have hstage : wakeStage s =
            if s.intStatus.getLsbD 0 = false then .toRaise else .completing := by
          rw [wakeStage, hpc]
          rfl
        have hstage' : wakeStage s' =
            .after (s.intStatus.getLsbD 0) (s.plic.pending virtioIrq) .toTrap := by
          rw [hstep]
          rfl
        unfold Nearer
        rw [hstage, hstage']
        cases s.intStatus.getLsbD 0 with
        | false => exact Or.inr ⟨rfl, fun hacts => by cases hacts⟩
        | true => cases s.plic.pending virtioIrq <;> exact Or.inl (by decide)

/-- Each step on which the handler does not get to its loop. -/
theorem IrqInv.nearer (h : IrqInv s) (hidle : s.virtio.io.isr = .idle) (hstep : IrqStep s e s') :
    s'.virtio.io.isr ≠ .idle ∨ Nearer s e s' := by
  -- A step of none of these is nobody's turn at any stage.
  have hother : ∀ e : IrqEvent ι β,
      e ≠ .raise ∧ e ≠ .forward virtioIrq ∧ e ≠ .trap ∧ e ≠ .handler →
        ¬ (wakeStage s).agent.Acts s e := by
    rintro e ⟨hraise, hforward, htrap, hhandler⟩
    cases (wakeStage s).agent with
    | raise => exact hraise
    | forward => exact hforward
    | trap => exact htrap
    | handler => exact hhandler
    | lastByte => exact fun hacts => hhandler hacts.1
  cases e with
  | virtio e =>
      obtain ⟨-, -, v, -, rfl⟩ := hstep
      exact Or.inr (nearer_of_up rfl id (fun _ => id) (hother _ (by simp)))
  | raise =>
      obtain ⟨-, rfl⟩ := hstep
      exact Or.inr (nearer_raise rfl (by simp) rfl)
  | configChange =>
      obtain rfl := hstep
      refine Or.inr (nearer_of_up rfl (fun hbit => ?_) (fun _ => id) (hother _ (by simp)))
      simp [hbit]
  | line source level =>
      obtain rfl := hstep
      exact Or.inr (nearer_of_up rfl id (fun _ => id) (hother _ (by simp)))
  | forward source =>
      obtain ⟨-, -, rfl⟩ := hstep
      right
      by_cases hid : source = virtioIrq
      · subst hid
        exact nearer_forward rfl rfl (Function.update_self virtioIrq true s.plic.pending)
      · refine nearer_of_up rfl id (fun _ hpending => ?_) (hother _ (by simp [hid]))
        exact (Function.update_of_ne (Ne.symm hid) ..).trans hpending
  | drop source =>
      obtain ⟨hdown, rfl⟩ := hstep
      refine Or.inr (nearer_of_up rfl id (fun hbit hpending => ?_) (hother _ (by simp)))
      -- The line is up while its bit is, so this is not the request that is
      -- dropped.
      have hid : virtioIrq ≠ source := by
        rintro rfl
        exact Bool.noConfusion (hdown.symm.trans (level_of_bit hbit))
      exact (Function.update_of_ne hid ..).trans hpending
  | trap =>
      obtain ⟨hpc, -, rfl⟩ := hstep
      exact Or.inr (nearer_next .toTrap .toClaim (by decide) (by rw [wakeStage, hpc]; rfl) rfl
        (Or.inr rfl))
  | handler => exact h.nearer_handler hidle hstep

/-- Who leads on has something to do. -/
theorem IrqInv.busy (h : IrqInv s) (hidle : s.virtio.io.isr = .idle)
    (hleft : EntryLeft s.virtio.io) : (wakeStage s).agent.Busy s := by
  have hok := h.pc
  -- Without the bit the notification is still to come.
  have hraise : s.intStatus.getLsbD 0 = false → ¬ InDiskIsr s.pc → s.toRaise = true := by
    intro hbit hout
    rcases h.wake hleft with htrue | htrue | hin
    · exact htrue
    · exact Bool.noConfusion (hbit.symm.trans htrue)
    · exact absurd hin hout
  -- With the bit, and without the request, it is the controller's turn.
  have hafter : ∀ stage : WakeStage, heldIrq s.pc ≠ virtioIrq → ¬ InDiskIsr s.pc →
      (s.plic.pending virtioIrq = true → stage.agent.Busy s) →
      (WakeStage.after (s.intStatus.getLsbD 0) (s.plic.pending virtioIrq) stage).agent.Busy s := by
    intro stage hheld hout hstage
    cases hbit : s.intStatus.getLsbD 0 with
    | false => exact hraise hbit hout
    | true =>
        cases hpending : s.plic.pending virtioIrq with
        | false => exact ⟨level_of_bit hbit, h.not_claimed hheld, hpending⟩
        | true => exact hstage hpending
  have hhandler : s.pc ≠ .out → IrqAgent.handler.Busy s := id
  unfold wakeStage
  cases hpc : s.pc with
  | diskIsr => exact absurd hpc (h.inside.mp hidle)
  | ack status => exact hhandler (by simp [hpc])
  | readStatus => exact hhandler (by simp [hpc])
  | dispatch irq =>
      rw [stageOf]
      split
      · exact hhandler (by simp [hpc])
      · rename_i hirq
        exact hafter .dispatchingByte (by simpa [hpc, heldIrq] using hirq)
          (by rw [hpc]; exact id) fun _ => hhandler (by simp [hpc])
  | complete irq =>
      rw [stageOf]
      split
      · split
        · rename_i hbit
          exact hraise hbit (by rw [hpc]; exact id)
        · exact hhandler (by simp [hpc])
      · rename_i hirq
        exact hafter .completingByte (by simpa [hpc, heldIrq] using hirq)
          (by rw [hpc]; exact id) fun _ => hhandler (by simp [hpc])
  | libIsr =>
      exact hafter .readingByte (by rw [hpc]; decide) (by rw [hpc]; exact id) fun _ => hpc
  | unexpected irq =>
      rw [hpc] at hok
      exact hok.elim
  | claim =>
      exact hafter .toClaim (by rw [hpc]; decide) (by rw [hpc]; exact id)
        fun _ => hhandler (by simp [hpc])
  | out =>
      have hheld : heldIrq s.pc ≠ virtioIrq := by
        rw [hpc]
        decide
      exact hafter .toTrap hheld (by rw [hpc]; exact id) fun hpending =>
        ⟨hpc, virtioIrq,
          (h.configured.ready_iff virtioIrq).mpr ⟨Or.inr rfl, hpending, h.not_claimed hheld⟩⟩

end Steps

/-! ### The driver in the whole -/

section Paths

variable [DecidableEq ι] [DecidableEq β]

/-- The step of the driver that a step of the whole is, if it is one. -/
def virtioPart (s : IrqState ι β) : IrqEvent ι β → Option (VirtioEvent ι β)
  | .virtio e => some e
  | .handler =>
      match s.pc with
      | .ack _ | .diskIsr => some .isr
      | _ => none
  | _ => none

omit [DecidableEq ι] in
/-- A step of the handler is one of its loop, which has cleared some bits before if
it is the first, or leaves the driver and `INTERRUPT_STATUS` alone. -/
theorem handlerStep_cases {s s' : IrqState ι β} (hstep : HandlerStep s s') :
    (virtioPart s .handler = some .isr ∧
      ∃ w, s' = diskIsrStep { s with intStatus := s.intStatus &&& w }) ∨
    (virtioPart s .handler = none ∧ s'.virtio = s.virtio ∧ s'.intStatus = s.intStatus) := by
  unfold HandlerStep at hstep
  unfold virtioPart
  cases hpc : s.pc with
  | out =>
      rw [hpc] at hstep
      exact hstep.elim
  | claim =>
      rw [hpc] at hstep
      obtain ⟨irq, -, rfl⟩ := hstep
      exact Or.inr ⟨rfl, rfl, rfl⟩
  -- No branch of the dispatch touches the driver.
  | dispatch irq =>
      rw [hpc] at hstep
      right
      dsimp only at hstep
      split at hstep
      · subst hstep
        exact ⟨rfl, rfl, rfl⟩
      · split at hstep
        · subst hstep
          exact ⟨rfl, rfl, rfl⟩
        · split at hstep <;> subst hstep <;> exact ⟨rfl, rfl, rfl⟩
  | libIsr =>
      rw [hpc] at hstep
      right
      dsimp only at hstep
      split at hstep <;> subst hstep <;> exact ⟨rfl, rfl, rfl⟩
  | ack status =>
      rw [hpc] at hstep
      exact Or.inl ⟨rfl, ~~~status, hstep⟩
  | diskIsr =>
      rw [hpc] at hstep
      refine Or.inl ⟨rfl, BitVec.allOnes 32, ?_⟩
      rw [BitVec.and_allOnes]
      exact hstep
  | readStatus | unexpected | complete =>
      rw [hpc] at hstep
      subst hstep
      exact Or.inr ⟨rfl, rfl, rfl⟩

/-- Each step is one of the driver, or leaves it alone. -/
theorem virtioPart_step {s s' : IrqState ι β} {e : IrqEvent ι β} (hstep : IrqStep s e s') :
    (virtioSystem ι β).withIdle.step s.virtio (virtioPart s e) s'.virtio := by
  cases e with
  | virtio e =>
      obtain ⟨-, -, v, hv, rfl⟩ := hstep
      exact hv
  | raise =>
      obtain ⟨-, rfl⟩ := hstep
      rfl
  | configChange | line =>
      obtain rfl := hstep
      rfl
  | forward | trap =>
      obtain ⟨-, -, rfl⟩ := hstep
      rfl
  | drop =>
      obtain ⟨-, rfl⟩ := hstep
      rfl
  | handler =>
      rcases handlerStep_cases hstep with ⟨hpart, w, rfl⟩ | ⟨hpart, hvirtio, -⟩
      · rw [hpart]
        rfl
      · rw [hpart]
        exact hvirtio

omit [DecidableEq ι] [DecidableEq β] in
/-- A call of the driver is a call of the whole. -/
theorem eq_call_of_virtioPart {s : IrqState ι β} {e : IrqEvent ι β} {t : ι} {b : β} {write : Bool}
    (h : virtioPart s e = some (.call t b write)) : e = .virtio (.call t b write) := by
  cases e with
  | virtio e => exact congrArg _ (Option.some.inj h)
  | handler =>
      unfold virtioPart at h
      cases hpc : s.pc <;> rw [hpc] at h <;> cases h
  | _ => cases h

/-- The run of the driver. -/
def virtioPath (P : (irqSystem ι β).Path) (h₀ : (irqSystem ι β).Reachable (P.state 0)) :
    (virtioSystem ι β).withIdle.Path :=
  P.map h₀ (fun s => s.virtio) virtioPart fun _ _ _ _ hstep => virtioPart_step hstep

/-- No task stops for good in a call, the device not with a request, and nobody on
the way of an interrupt. -/
structure IrqNobodyStops (P : (irqSystem ι β).Path) : Prop where
  tasks : ∀ t, P.Fair (fun _ e => e = .virtio (.task t)) fun s => (Agent.task t).Busy s.virtio
  device : P.Fair (fun _ e => ∃ m, e = .virtio (.device m)) fun s => DeviceBusy s.virtio.io
  irqs : ∀ a : IrqAgent, P.Fair a.Acts a.Busy

variable {P : (irqSystem ι β).Path}

/-- An entry of the used ring brings the handler into the loop of
`virtio_disk_isr`. -/
theorem entry_leadsTo_diskIsr (h₀ : (irqSystem ι β).Reachable (P.state 0))
    (hfair : IrqNobodyStops P) :
    P.LeadsTo IrqInv fun s => s.virtio.io.isr ≠ .idle ∨ ¬ EntryLeft s.virtio.io := by
  refine System.Path.leadsTo_of_measure h₀ (fun s => (wakeStage s).rank)
    (fun s => (wakeStage s).agent) hfair.irqs ?_ ?_
  · intro s h hgoal
    obtain ⟨hidle, hleft⟩ := not_or.mp hgoal
    exact h.busy (not_not.mp hidle) (not_not.mp hleft)
  · intro s e s' _ h hgoal hstep
    rcases h.nearer (not_not.mp (not_or.mp hgoal).1) hstep with hisr | hless | ⟨hsame, hacts⟩
    · exact Or.inl (Or.inl hisr)
    · exact Or.inr ⟨h.step hstep, Or.inl hless⟩
    · exact Or.inr ⟨h.step hstep, Or.inr ⟨by rw [hsame], by rw [hsame], hacts⟩⟩

/-- The handler does not stop, be it with an entry to consume or in its loop. -/
theorem irq_keepsOn (h₀ : (irqSystem ι β).Reachable (P.state 0)) (hfair : IrqNobodyStops P)
    (n : Nat) : ∃ m, n ≤ m ∧ (virtioPart (P.state m) (P.label m) = some .isr ∨
      ¬ Agent.isr.Busy (P.state m).virtio) := by
  have hinv : ∀ m, IrqInv (P.state m) := fun m => irqInv_reachable (P.reachable h₀ m)
  obtain ⟨m, hnm, hgoal⟩ := entry_leadsTo_diskIsr h₀ hfair n (hinv n)
  by_cases hidle : (P.state m).virtio.io.isr = .idle
  · refine ⟨m, hnm, Or.inr ?_⟩
    rintro (hisr | hleft)
    · exact hisr hidle
    · exact hgoal.elim (fun hisr => hisr hidle) fun hnone => hnone hleft
  · have hpc : (P.state m).pc = .diskIsr := by
      by_contra hpc
      exact hidle ((hinv m).inside.mpr hpc)
    -- No other step takes it out of there.
    obtain ⟨l, hml, hpc', hacts⟩ := System.Path.exists_act h₀ (p := fun s => s.pc = .diskIsr)
      (hfair.irqs .handler) (fun s hs hout => by cases hs.symm.trans hout)
      (fun s e s' _ hs hstep => by
        cases e with
        | virtio e =>
            obtain ⟨-, -, v, -, rfl⟩ := hstep
            exact Or.inr hs
        | raise =>
            obtain ⟨-, rfl⟩ := hstep
            exact Or.inr hs
        | configChange | line =>
            obtain rfl := hstep
            exact Or.inr hs
        | forward =>
            obtain ⟨-, -, rfl⟩ := hstep
            exact Or.inr hs
        | drop =>
            obtain ⟨-, rfl⟩ := hstep
            exact Or.inr hs
        | trap => cases hs.symm.trans hstep.1
        | handler => exact Or.inl rfl) hpc
    refine ⟨l, Nat.le_trans hnm hml, Or.inl ?_⟩
    rw [show P.label l = .handler from hacts, virtioPart, hpc']

/-- On the run of the driver nobody stops. -/
theorem nobodyStops_virtioPath (h₀ : (irqSystem ι β).Reachable (P.state 0))
    (hfair : IrqNobodyStops P) : NobodyStops (virtioPath P h₀) := by
  intro a n
  cases a with
  | task t =>
      obtain ⟨m, hnm, hacts | hidle⟩ := hfair.tasks t n
      · exact ⟨m, hnm, Or.inl (congrArg (virtioPart (P.state m)) hacts)⟩
      · exact ⟨m, hnm, Or.inr hidle⟩
  | device =>
      obtain ⟨m, hnm, ⟨move, hacts⟩ | hidle⟩ := hfair.device n
      · exact ⟨m, hnm, Or.inl ⟨move, congrArg (virtioPart (P.state m)) hacts⟩⟩
      · exact ⟨m, hnm, Or.inr hidle⟩
  | isr => exact irq_keepsOn h₀ hfair n

/-- The block driver with the interrupts, on every infinite run on which nobody
stops, with bytes of the UART and other interrupts at any time: a call that has the
lock returns; whenever a call is under way, one returns then or later; and if no
new calls are made, all return. -/
theorem externalHandler_live (P : (irqSystem ι β).Path)
    (h₀ : (irqSystem ι β).Reachable (P.state 0)) (hfair : IrqNobodyStops P) (n : Nat) :
    (∀ t c, HasLock t c (P.state n).virtio → ∃ m, n ≤ m ∧ c.id ∈ (P.state m).virtio.returned) ∧
    ((∃ t c pc, (P.state n).virtio.task t = .running c pc) →
      ∃ m id, n ≤ m ∧ id ∈ (P.state m).virtio.returned ∧ id ∉ (P.state n).virtio.returned) ∧
    ((∀ m, n ≤ m → ∀ t b write, P.label m ≠ .virtio (.call t b write)) →
      ∀ t c pc, (P.state n).virtio.task t = .running c pc →
        ∃ m, n ≤ m ∧ c.id ∈ (P.state m).virtio.returned) := by
  have hreach : (virtioSystem ι β).withIdle.Reachable ((virtioPath P h₀).state 0) :=
    (irqInv_reachable h₀).driver.withIdle
  have hrun := nobodyStops_virtioPath h₀ hfair
  refine ⟨fun t c hlock => hasLock_leadsTo_returned hreach hrun t c n hlock, ?_, ?_⟩
  · rintro ⟨t, c, pc, ht⟩
    exact some_call_returns (P := virtioPath P h₀) hreach hrun (n := n) ht
  · intro hcalls t c pc ht
    refine all_calls_return (P := virtioPath P h₀) hreach hrun (n := n) ?_ ht
    exact fun m hnm t b write heq => hcalls m hnm t b write (eq_call_of_virtioPart heq)

end Paths

/-! ### The end of a run -/

section Settle

variable [DecidableEq ι] [DecidableEq β] {s : IrqState ι β}

/-- The event is a call of `virtio_disk_rw`. -/
def IsCall : IrqEvent ι β → Prop
  | .virtio (.call _ _ _) => True
  | _ => False

omit [DecidableEq ι] [DecidableEq β] in
/-- What leads on is not a call. -/
theorem not_isCall {e : IrqEvent ι β} (h : IrqOnward e) : ¬ IsCall e := by
  cases e with
  | virtio e => cases e <;> first | exact id | exact h.elim
  | _ => exact id

/-- Nothing is left to do for the interrupts. -/
structure Settled (s : IrqState ι β) : Prop where
  out : s.pc = .out
  raised : s.toRaise = false
  status : s.intStatus = 0#32
  uart : s.plic.pending uart0Irq = false
  virtio : s.plic.pending virtioIrq = false

/-- In a settled state nobody is busy. -/
theorem IrqInv.not_busy (h : IrqInv s) (hs : Settled s) (a : IrqAgent) : ¬ a.Busy s := by
  cases a with
  | raise => exact fun hbusy => Bool.noConfusion (hs.raised.symm.trans hbusy)
  | forward =>
      rintro ⟨hup, -⟩
      have hdown : s.level virtioIrq = false := by simp [IrqState.level, hs.status]
      exact Bool.noConfusion (hdown.symm.trans hup)
  | trap =>
      rintro ⟨-, irq, hready⟩
      obtain ⟨rfl | rfl, hpending, -⟩ := (h.configured.ready_iff irq).mp hready
      · exact Bool.noConfusion (hs.uart.symm.trans hpending)
      · exact Bool.noConfusion (hs.virtio.symm.trans hpending)
  | handler => exact fun hbusy => hbusy hs.out
  | lastByte => exact fun hbusy => by cases hs.out.symm.trans hbusy

/-- `INTERRUPT_STATUS` has two bits. -/
theorem status_bits (hs : (irqSystem ι β).Reachable s) : s.intStatus &&& 3#32 = s.intStatus := by
  -- Only `raise` and the change of configuration set bits, one each.
  refine System.invariant (I := fun s : IrqState ι β => s.intStatus &&& 3#32 = s.intStatus)
    (fun s hinit => ?_) (fun s e s' hs hstep => ?_) hs
  · rw [hinit.2.1, BitVec.zero_and]
  · cases e with
    | virtio e =>
        obtain ⟨-, -, v, -, rfl⟩ := hstep
        exact hs
    | raise =>
        obtain ⟨-, rfl⟩ := hstep
        show (s.intStatus ||| 1#32) &&& 3#32 = s.intStatus ||| 1#32
        rw [BitVec.and_or_distrib_right, hs]
        rfl
    | configChange =>
        obtain rfl := hstep
        show (s.intStatus ||| 2#32) &&& 3#32 = s.intStatus ||| 2#32
        rw [BitVec.and_or_distrib_right, hs]
        rfl
    | line =>
        obtain rfl := hstep
        exact hs
    | forward | trap =>
        obtain ⟨-, -, rfl⟩ := hstep
        exact hs
    | drop =>
        obtain ⟨-, rfl⟩ := hstep
        exact hs
    | handler =>
        rcases handlerStep_cases hstep with ⟨-, w, rfl⟩ | ⟨-, -, hstatus⟩
        · show s.intStatus &&& w &&& 3#32 = s.intStatus &&& w
          rw [BitVec.and_assoc, BitVec.and_comm w, ← BitVec.and_assoc, hs]
        · rw [hstatus, hs]

/-- The UART takes its line down, and the device asks for one more interrupt. -/
theorem lastLineUp (s : IrqState ι β) :
    ∃ s', (irqSystem ι β).Run s [.line uart0Irq false, .drop uart0Irq, .configChange] s' ∧
      s'.pc = s.pc ∧ s'.virtio = s.virtio ∧ s'.toRaise = s.toRaise ∧
      s'.level virtioIrq = true ∧ s'.plic.pending uart0Irq = false := by
  -- The state after each of the three events is the next one in this list.
  obtain ⟨p, hp⟩ : ∃ p : Plic, p = { s.plic with
      pending := Function.update s.plic.pending uart0Irq false } := ⟨_, rfl⟩
  obtain ⟨line, hline⟩ : ∃ line, line = Function.update s.line uart0Irq false := ⟨_, rfl⟩
  have hlower : IrqStep s (.line uart0Irq false) { s with line := line } := by
    rw [hline]
    rfl
  have hdrop : IrqStep { s with line := line } (.drop uart0Irq)
      { s with line := line, plic := p } := by
    refine ⟨?_, by rw [hp]⟩
    show (if uart0Irq = virtioIrq then decide (s.intStatus ≠ 0#32) else line uart0Irq) = false
    rw [if_neg (by decide), hline, Function.update_self]
  have hconfig : IrqStep { s with line := line, plic := p } .configChange
      { s with line := line, plic := p, intStatus := s.intStatus ||| 2#32 } := rfl
  -- The bit of the configuration is up, so the line is.
  have hne : s.intStatus ||| 2#32 ≠ 0#32 := by
    intro hzero
    have hbit : (s.intStatus ||| 2#32).getLsbD 1 = true := by simp
    simp [hzero] at hbit
  refine ⟨_, .snoc (.snoc (.single hlower) hdrop) hconfig, rfl, rfl, rfl, ?_, ?_⟩
  · simp [IrqState.level, hne]
  · rw [hp]
    exact Function.update_self uart0Irq false s.plic.pending

/-- Where the loop of `virtio_disk_isr` finds no entry, the handler returns. -/
theorem return_of_consumed (hpc : s.pc = .diskIsr) (htest : s.virtio.io.isr = .test)
    (hcons : s.virtio.io.disk.usedIdx = s.virtio.io.disk.usedRingIdx) :
    ∃ s', (irqSystem ι β).Run s [.handler, .handler] s' ∧ s'.pc = .out ∧
      s'.virtio = { s.virtio with io := { s.virtio.io with isr := .idle } } ∧
      s'.toRaise = s.toRaise ∧ s'.intStatus = s.intStatus ∧
      s'.plic.pending = s.plic.pending := by
  have hend : isrStep s.virtio.io = { s.virtio.io with isr := .idle } := by
    simp [isrStep, htest, hcons]
  obtain ⟨t, ht⟩ : ∃ t, t = diskIsrStep s := ⟨_, rfl⟩
  -- The test that finds the ring empty, and then the completion.
  have hloop : IrqStep s .handler t := by
    show HandlerStep s t
    rw [HandlerStep, hpc]
    exact ht
  have hpc' : t.pc = .complete virtioIrq := by
    rw [ht, diskIsrStep, hend]
    rfl
  have hcomplete : IrqStep t .handler
      ({ t with plic := t.plic.complete virtioIrq }.goto .out [.completed virtioIrq]) := by
    show HandlerStep t _
    rw [HandlerStep, hpc']
  refine ⟨_, .snoc (.single hloop) hcomplete, rfl, ?_, ?_, ?_, ?_⟩
  · rw [← hend, ht]
    rfl
  · rw [ht]
    rfl
  · rw [ht]
    rfl
  · rw [ht]
    rfl

/-- Where the driver has nothing left to do, the interrupts come to an end: one more
interrupt of the block device takes the rest. -/
theorem settle_of_raised (hs : (irqSystem ι β).Reachable s) (hout : s.pc = .out)
    (hquiet : Quiet s.virtio.io) (hraised : s.toRaise = false) :
    ∃ es s', (irqSystem ι β).Run s es s' ∧ (∀ e ∈ es, ¬ IsCall e) ∧ Settled s' ∧
      s'.virtio.task = s.virtio.task ∧ Quiet s'.virtio.io := by
  have hidle : s.virtio.io.isr = .idle := (irqInv_reachable hs).inside.mpr (by simp [hout])
  -- `₁`: the last bytes are taken and the line is up. `₂`: the request is claimed.
  -- `₃`: the handler is in its loop. `₄`: it has returned.
  obtain ⟨s₁, hrun₁, hpc₁, hvirtio₁, hraised₁, hup, huart⟩ := lastLineUp s
  have hreach₁ := hs.run hrun₁
  obtain ⟨es₂, s₂, hrun₂, hes₂, hinv₂, hpc₂, hvirtio₂, hraised₂, -, hpending₂⟩ :=
    (irqInv_reachable hreach₁).take (hpc₁.trans hout) hup
  obtain ⟨es₃, s₃, hrun₃, hes₃, -, hpc₃, hvirtio₃, hraised₃, hstatus₃, hplic₃⟩ :=
    hinv₂.enter hpc₂
  have hio : s₃.virtio = { s.virtio with io := { s.virtio.io with isr := .test } } := by
    rw [hvirtio₃, hvirtio₂, hvirtio₁, isrStep, hidle]
  obtain ⟨s₄, hrun₄, hpc₄, hvirtio₄, hraised₄, hstatus₄, hpending₄⟩ :=
    return_of_consumed hpc₃ (by rw [hio]) (by rw [hio]; exact hquiet.consumed)
  have hpending : s₄.plic.pending = Function.update s₁.plic.pending virtioIrq false := by
    rw [hpending₄, hplic₃, hpending₂]
  refine ⟨_, s₄, hrun₁.append (hrun₂.append (hrun₃.append hrun₄)), fun e he => ?_,
    ⟨hpc₄, ?_, ?_, ?_, ?_⟩, ?_, ?_⟩
  · simp only [List.mem_append, List.mem_cons, List.not_mem_nil, or_false] at he
    rcases he with (rfl | rfl | rfl) | he | he | rfl | rfl
    · exact id
    · exact id
    · exact id
    · exact not_isCall (hes₂ e he)
    · exact not_isCall (hes₃ e he)
    · exact id
    · exact id
  · rw [hraised₄, hraised₃, hraised₂, hraised₁, hraised]
  · -- All bits that are set are acknowledged.
    rw [hstatus₄, hstatus₃, status_bits (hreach₁.run hrun₂)]
    exact BitVec.and_not_self _
  · have hne : uart0Irq ≠ virtioIrq := by decide
    rw [hpending, Function.update_of_ne hne, huart]
  · rw [hpending]
    exact Function.update_self ..
  · rw [hvirtio₄, hio]
  · rw [hvirtio₄, hio]
    exact ⟨hquiet.taken, hquiet.inFlight, hquiet.consumed, Or.inl rfl⟩

/-- The same with a notification to come. -/
theorem settle (hs : (irqSystem ι β).Reachable s) (hout : s.pc = .out)
    (hquiet : Quiet s.virtio.io) :
    ∃ es s', (irqSystem ι β).Run s es s' ∧ (∀ e ∈ es, ¬ IsCall e) ∧ Settled s' ∧
      s'.virtio.task = s.virtio.task ∧ Quiet s'.virtio.io := by
  cases hraised : s.toRaise with
  | false => exact settle_of_raised hs hout hquiet hraised
  | true =>
      have hstep : IrqStep s .raise
          { s with toRaise := false, intStatus := s.intStatus ||| 1#32 } := ⟨hraised, rfl⟩
      obtain ⟨es, s', hrun, hes, hrest⟩ :=
        settle_of_raised (hs.step (e := .raise) hstep) hout hquiet rfl
      refine ⟨[.raise] ++ es, s', (System.Run.single hstep).append hrun, fun e he => ?_, hrest⟩
      rcases List.mem_append.mp he with he | he
      · rw [List.mem_singleton.mp he]
        exact id
      · exact hes e he

end Settle

/-! ### A byte while a call waits -/

/-- From the byte on, with no other call, to an end at which nothing is left to
do. -/
theorem byteArrived_path : ∃ P : (irqSystem Bool Unit).Path,
    P.state 0 = byteArrived ∧ IrqNobodyStops P ∧
      ∀ n t b write, P.label n ≠ .virtio (.call t b write) := by
  obtain ⟨es, s₁, hrun, hes, ⟨hinv₁, hkept⟩, hout₁⟩ :=
    (irqInv_reachable byteArrived_reachable).leave
  -- The task takes the lock, which is free, and drives its call.
  have ht₁ : s₁.virtio.task false = .running ⟨(), true, 1#64, 0⟩ .acquire := by
    rw [hkept.task]
    rfl
  have hlock₁ : s₁.virtio.vdiskLock = 0#32 := by
    rw [hkept.lock]
    rfl
  have hisr₁ : s₁.virtio.io.isr = .idle := hinv₁.inside.mpr (by simp [hout₁])
  have hstep : IrqStep s₁ (.virtio (.task false)) { s₁ with
      virtio := taskStep s₁.virtio false ⟨(), true, 1#64, 0⟩ .acquire
      toRaise := s₁.toRaise || countsEntry (.task false : VirtioEvent Bool Unit) } :=
    ⟨by simp, Or.inl hout₁, _, ⟨hisr₁, _, .acquire, ht₁, rfl⟩, rfl⟩
  have ht₂ : (taskStep s₁.virtio false ⟨(), true, 1#64, 0⟩ .acquire).task false =
      .running ⟨(), true, 1#64, 0⟩ (.allocTest [] 0) := by
    simp [taskStep, hlock₁]
  obtain ⟨fs, s₂, hrun₂, hfs, hinv₂, hout₂, -, -, hfalse, hothers⟩ :=
    (hinv₁.step hstep).finish hout₁ ht₂ (by simp)
  have htask₂ : ∀ u, s₂.virtio.task u = .outside := by
    intro u
    cases u with
    | false => exact hfalse
    | true =>
        have hne : true ≠ false := by decide
        have hafter : (taskStep s₁.virtio false ⟨(), true, 1#64, 0⟩ .acquire).task true =
            s₁.virtio.task true := by
          simp [taskStep, hlock₁]
        rw [hothers true hne, hafter, hkept.task]
        rfl
  have hquiet₂ : Quiet s₂.virtio.io := by
    refine ((driverInv_reachable hinv₂.driver).rest fun u => ?_).1
    rw [htask₂ u]
    exact id
  have htake : (irqSystem Bool Unit).Run byteArrived (es ++ [.virtio (.task false)]) _ :=
    .snoc hrun hstep
  have hcall := htake.append hrun₂
  -- The interrupts come to an end, and there it stays.
  obtain ⟨gs, s₃, hrun₃, hgs, hsettled, htask, hquiet⟩ :=
    settle (byteArrived_reachable.run hcall) hout₂ hquiet₂
  obtain ⟨ls, hls⟩ : ∃ ls, ls = es ++ [.virtio (.task false)] ++ fs ++ gs := ⟨_, rfl⟩
  have hwhole : (irqSystem Bool Unit).Run byteArrived ls s₃ := hls ▸ hcall.append hrun₃
  have hself : IrqStep s₃ (.line uart0Irq (s₃.line uart0Irq)) s₃ := by
    show s₃ = { s₃ with line := _ }
    rw [Function.update_eq_self]
  obtain ⟨P, hP, hfirst, hlast⟩ := System.Path.of_run hwhole
    (System.Path.stutter (M := irqSystem Bool Unit)
      (e := .line uart0Irq (s₃.line uart0Irq)) hself) rfl
  have hend : ∀ n, P.state (ls.length + n) = s₃ := fun n => (hlast n).1
  have hinv₃ : IrqInv s₃ := irqInv_reachable (byteArrived_reachable.run hwhole)
  refine ⟨P, hP, ⟨fun u => ?_, ?_, fun a => ?_⟩, fun n t b write heq => ?_⟩
  · refine System.Path.fair_of_idle ls.length fun n => ?_
    rw [hend]
    rintro ⟨c, pc, hu⟩
    rw [htask, htask₂] at hu
    cases hu
  · refine System.Path.fair_of_idle ls.length fun n => ?_
    rw [hend]
    exact hquiet.not_busy.1
  · refine System.Path.fair_of_idle ls.length fun n => ?_
    rw [hend]
    exact hinv₃.not_busy hsettled a
  · have hnot : ¬ IsCall (P.label n) := by
      by_cases hn : n < ls.length
      · have hin := hfirst n hn
        simp only [hls, List.mem_append, List.mem_singleton] at hin
        rcases hin with ((hin | hin) | hin) | hin
        · exact not_isCall (hes _ hin)
        · rw [hin]
          exact id
        · exact not_isCall (hfs _ hin)
        · exact hgs _ hin
      · obtain ⟨d, rfl⟩ := Nat.exists_eq_add_of_le (Nat.le_of_not_lt hn)
        rw [(hlast d).2]
        exact id
    rw [heq] at hnot
    exact hnot trivial

/-- The call that waited returns. -/
theorem byteArrived_live : ∃ P : (irqSystem Bool Unit).Path, P.state 0 = byteArrived ∧
    ∃ m, 0 ≤ m ∧ 0 ∈ (P.state m).virtio.returned := by
  obtain ⟨P, hP, hfair, hcalls⟩ := byteArrived_path
  obtain ⟨-, -, hall⟩ := externalHandler_live P (hP ▸ byteArrived_reachable) hfair 0
  refine ⟨P, hP, hall (fun m _ => hcalls m) false ⟨(), true, 1#64, 0⟩ .acquire ?_⟩
  rw [hP]
  rfl

end MiniRiscvOs.Proofs
