import MiniRiscvOs.Kernel.Virtio

/-!
# `MiniRiscvOs.Kernel.External`: external interrupts, from the line to the handler

`plic_init`, `plic_claim`, `plic_complete` and `external_handler`, with the
interrupt controller between them and the devices, and the block driver of
`virtioSystem` around them. There the handler comes in whenever it likes.
Here it has to be called: the device counts an entry of the used ring and
then sets its `INTERRUPT_STATUS`, the line makes the controller's request
pending, the hart takes the trap, and `external_handler` claims the request,
calls `lib_isr` or `virtio_disk_isr`, and completes it.

Each access to a register is one step, and the devices go on between any
two. The tasks stand still from the trap to the return. The controller
forwards no request of a source from its claim to its completion. It may
drop a pending request whose line has gone down.
-/

set_option autoImplicit false

namespace MiniRiscvOs.Kernel.External

open MiniRiscvOs.Lib
open MiniRiscvOs.Kernel

/-- `UART0_IRQ`. -/
def uart0Irq : Nat := 10

/-- `VIRTIO_IRQ`. -/
def virtioIrq : Nat := 1

/-! ### The interrupt controller -/

/-- The registers of the controller for the hart, and what it has of each
source. -/
structure Plic where
  priority : Nat → Word
  enable : Nat → Bool
  threshold : Word
  pending : Nat → Bool
  /-- The request is claimed and not yet complete. -/
  claimed : Nat → Bool

/-- A store of `w` to the first word of the enable bits. -/
def Plic.setEnable (p : Plic) (w : Word) : Plic :=
  { p with enable := fun id => if id < 32 then w.getLsbD id else p.enable id }

/-- `plic_init`. -/
def plicInit (p : Plic) : Plic :=
  let p := { p with priority := Function.update p.priority uart0Irq 1#32 }
  let p := { p with priority := Function.update p.priority virtioIrq 1#32 }
  let p := p.setEnable ((1#32 <<< uart0Irq) ||| (1#32 <<< virtioIrq))
  { p with threshold := 0#32 }

/-- The request of a source can interrupt the hart. There is no source 0. -/
def Plic.Ready (p : Plic) (id : Nat) : Prop :=
  0 < id ∧ p.pending id = true ∧ p.claimed id = false ∧ p.enable id = true ∧
    p.threshold < p.priority id

/-- What `plic_claim` may read: a ready request of the highest priority, of
several the lowest, and `0` where none is ready. -/
def Plic.Best (p : Plic) (irq : Nat) : Prop :=
  (irq = 0 ∧ ∀ id, ¬ p.Ready id) ∨
  (p.Ready irq ∧ ∀ id, p.Ready id →
    p.priority id < p.priority irq ∨ (p.priority id = p.priority irq ∧ irq ≤ id))

/-- The controller after `plic_claim` has read `irq`. -/
def Plic.claim (p : Plic) (irq : Nat) : Plic :=
  if irq = 0 then p
  else
    { p with
      pending := Function.update p.pending irq false
      claimed := Function.update p.claimed irq true }

/-- `plic_complete(irq)`. -/
def Plic.complete (p : Plic) (irq : Nat) : Plic :=
  { p with claimed := Function.update p.claimed irq false }

/-! ### The handler -/

/-- A program point of `external_handler`. -/
inductive ExtPc where
  | out
  /-- `plic_claim()`. -/
  | claim
  /-- The tests of `irq`. -/
  | dispatch (irq : Nat)
  /-- The loop of `lib_isr`. -/
  | libIsr
  /-- `virtio_disk_isr`: the read of `INTERRUPT_STATUS`. -/
  | readStatus
  /-- `virtio_disk_isr`: the store of `status & 3` to `INTERRUPT_ACK`. -/
  | ack (status : Word)
  /-- The loop of `virtio_disk_isr`. -/
  | diskIsr
  /-- `lib_printf("unexpected interrupt irq = %d\n", irq)`. -/
  | unexpected (irq : Nat)
  /-- `plic_complete(irq)`. -/
  | complete (irq : Nat)
deriving DecidableEq, Repr

/-- What `external_handler` has done. -/
inductive ExtAction where
  | claimed (irq : Nat)
  | libIsr
  | virtioDiskIsr
  | unexpected (irq : Nat)
  | completed (irq : Nat)
deriving DecidableEq, Repr

/-- The block driver with the interrupts. `line` has the lines of the other
sources, that of the UART among them. `toRaise` is set from an entry of the
used ring to the notification for it. The ghost `log` is what
`external_handler` has done. -/
structure IrqState (ι β : Type) where
  virtio : VirtioState ι β
  intStatus : Word
  toRaise : Bool
  line : Nat → Bool
  plic : Plic
  pc : ExtPc
  log : List ExtAction

/-- Who makes the next step. -/
inductive IrqEvent (ι β : Type) where
  /-- A task, code outside of the driver, or the block device. -/
  | virtio (e : VirtioEvent ι β)
  /-- The device sets bit 0 of `INTERRUPT_STATUS`: it has used a buffer. -/
  | raise
  /-- The device sets bit 1: its configuration has changed. -/
  | configChange
  /-- The line of another source. -/
  | line (id : Nat) (level : Bool)
  /-- The controller forwards the request of a line. -/
  | forward (id : Nat)
  /-- The controller drops the request of a line that is down. -/
  | drop (id : Nat)
  /-- The hart takes the interrupt. -/
  | trap
  /-- `external_handler` makes a step. -/
  | handler

section Steps

variable {ι β : Type} [DecidableEq ι] [DecidableEq β]

/-- The line of a source. That of the block device is up while its
`INTERRUPT_STATUS` is not zero. -/
def IrqState.level (s : IrqState ι β) (id : Nat) : Bool :=
  if id = virtioIrq then s.intStatus ≠ 0#32 else s.line id

/-- Go on to another program point, with what has been done. -/
def IrqState.goto (s : IrqState ι β) (pc : ExtPc) (done : List ExtAction) : IrqState ι β :=
  { s with pc := pc, log := s.log ++ done }

/-- The loop of `virtio_disk_isr` makes a step, and the handler goes on
after it when it has returned. -/
def diskIsrStep (s : IrqState ι β) : IrqState ι β :=
  { s with
    virtio := { s.virtio with io := isrStep s.virtio.io }
    pc := if (isrStep s.virtio.io).isr = .idle then .complete virtioIrq else .diskIsr }

/-- One step of `external_handler`. -/
def HandlerStep (s s' : IrqState ι β) : Prop :=
  match s.pc with
  | .out => False
  | .claim => ∃ irq, s.plic.Best irq ∧
      s' = { s with plic := s.plic.claim irq }.goto (.dispatch irq)
        (if irq = 0 then [] else [.claimed irq])
  | .dispatch irq =>
      if irq = uart0Irq then s' = s.goto .libIsr [.libIsr]
      else if irq = virtioIrq then s' = s.goto .readStatus [.virtioDiskIsr]
      else if irq ≠ 0 then s' = s.goto (.unexpected irq) [.unexpected irq]
      else s' = s.goto .out []
  | .libIsr =>
      -- A turn takes the byte the UART has. With no byte the loop ends.
      if s.line uart0Irq then s' = { s with line := Function.update s.line uart0Irq false }
      else s' = s.goto (.complete uart0Irq) []
  | .readStatus => s' = s.goto (.ack (s.intStatus &&& 3#32)) []
  | .ack status => s' = diskIsrStep { s with intStatus := s.intStatus &&& ~~~status }
  | .diskIsr => s' = diskIsrStep s
  | .unexpected irq => s' = s.goto (.complete irq) []
  | .complete irq => s' = { s with plic := s.plic.complete irq }.goto .out [.completed irq]

/-- The event is a move of the device. -/
def VirtioEvent.IsDevice : VirtioEvent ι β → Prop
  | .device _ => True
  | _ => False

/-- The event counts an entry of the used ring. -/
def countsEntry : VirtioEvent ι β → Bool
  | .device (.bump _) => true
  | _ => false

/-- One step of the whole. -/
def IrqStep (s : IrqState ι β) (e : IrqEvent ι β) (s' : IrqState ι β) : Prop :=
  match e with
  | .virtio e => e ≠ .isr ∧ (s.pc = .out ∨ VirtioEvent.IsDevice e) ∧
      ∃ v, VirtioStep s.virtio e v ∧
        s' = { s with virtio := v, toRaise := s.toRaise || countsEntry e }
  | .raise => s.toRaise = true ∧
      s' = { s with toRaise := false, intStatus := s.intStatus ||| 1#32 }
  | .configChange => s' = { s with intStatus := s.intStatus ||| 2#32 }
  | .line id level => s' = { s with line := Function.update s.line id level }
  | .forward id => s.level id = true ∧ s.plic.claimed id = false ∧
      s' = { s with plic := { s.plic with pending := Function.update s.plic.pending id true } }
  | .drop id => s.level id = false ∧
      s' = { s with plic := { s.plic with pending := Function.update s.plic.pending id false } }
  | .trap => s.pc = .out ∧ (∃ id, s.plic.Ready id) ∧ s' = { s with pc := .claim }
  | .handler => HandlerStep s s'

/-- The state after `plic_init` and `virtio_disk_init`, of a controller with
no other source enabled. -/
def IrqInit (s : IrqState ι β) : Prop :=
  VirtioInit s.virtio ∧ s.intStatus = 0#32 ∧ s.toRaise = false ∧ s.pc = .out ∧ s.log = [] ∧
  ∃ p : Plic, (∀ id, 32 ≤ id → p.enable id = false) ∧ (∀ id, p.claimed id = false) ∧
    s.plic = plicInit p

/-- The driver with its device and the interrupts. -/
def irqSystem (ι β : Type) [DecidableEq ι] [DecidableEq β] :
    System (IrqState ι β) (IrqEvent ι β) where
  init := IrqInit
  step := IrqStep

end Steps

end MiniRiscvOs.Kernel.External
