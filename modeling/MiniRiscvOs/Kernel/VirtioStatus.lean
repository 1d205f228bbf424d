import MiniRiscvOs.Kernel.Virtio

/-!
# `MiniRiscvOs.Kernel.VirtioStatus`: the driver and any device

`virtio_disk_rw` and `virtio_disk_isr` with a device that may do anything
with what it can write: any status byte, any entry of the used ring, the
index of the used ring. An interrupt may come in at any time. Tasks and
handler are those of `virtioSystem`.

The ghosts tell what the device has said. From the bump of `avail->idx` to
the end of the wait a request is submitted under the head of its chain, and
`wrote` has the values that the device has written into its status byte
since then.
-/

set_option autoImplicit false

namespace MiniRiscvOs.Kernel

open MiniRiscvOs.Lib

/-- The kernel with the ghosts. `answered` has each call whose wait has
ended, with what the device had written for it. -/
structure StatusState (ι β : Type) where
  virtio : VirtioState ι β
  submitted : Nat → Bool
  wrote : Nat → List Byte
  answered : List (Nat × List Byte)

/-- Who makes the next step. -/
inductive StatusEvent (ι β : Type) where
  /-- A task, the handler, or code outside of the driver. -/
  | kernel (e : VirtioEvent ι β)
  /-- The device writes `disk.info[i].status`. -/
  | writeStatus (i : Nat) (status : Byte)
  /-- The device writes entry `k` of the used ring. -/
  | append (k : Nat) (id : Word)
  /-- The device writes the index of the used ring. -/
  | publish (n : BitVec 16)

section Status

variable {ι β : Type} [DecidableEq ι] [DecidableEq β]

/-- What a statement of `virtio_disk_rw` does to the ghosts. -/
def recordRw (s : StatusState ι β) (c : RwCall β) : RwPc → StatusState ι β
  | .bump idx =>
      { s with
        submitted := Function.update s.submitted idx[0]! true
        wrote := Function.update s.wrote idx[0]! [] }
  | .clearB idx =>
      { s with
        submitted := Function.update s.submitted idx[0]! false
        answered := (c.id, s.wrote idx[0]!) :: s.answered }
  | _ => s

/-- What a step of the kernel does to the ghosts. -/
def record (s : StatusState ι β) : VirtioEvent ι β → StatusState ι β
  | .task t =>
      match s.virtio.task t with
      | .running c pc => recordRw s c pc
      | .outside => s
  | _ => s

/-- The device changes the memory. -/
def StatusState.onDisk (s : StatusState ι β) (stmt : Disk β → Disk β) : StatusState ι β :=
  { s with virtio := { s.virtio with io := s.virtio.io.onDisk stmt } }

/-- One step of the whole. -/
def StatusStep (s : StatusState ι β) (e : StatusEvent ι β) (s' : StatusState ι β) : Prop :=
  match e with
  | .kernel e => (∀ m, e ≠ .device m) ∧
      ∃ v, VirtioStep s.virtio e v ∧ s' = { record s e with virtio := v }
  | .writeStatus i status =>
      s' = { s.onDisk fun d => { d with infoStatus := Function.update d.infoStatus i status } with
        wrote := if s.submitted i then Function.update s.wrote i (s.wrote i ++ [status])
          else s.wrote }
  | .append k id =>
      s' = s.onDisk fun d => { d with usedRing := Function.update d.usedRing k id }
  | .publish n => s' = s.onDisk fun d => { d with usedRingIdx := n }

/-- The kernel after `virtio_disk_init`, with no request yet. -/
def StatusInit (s : StatusState ι β) : Prop :=
  VirtioInit s.virtio ∧ (∀ i, s.submitted i = false) ∧ s.answered = []

/-- The driver with any device. -/
def statusSystem (ι β : Type) [DecidableEq ι] [DecidableEq β] :
    System (StatusState ι β) (StatusEvent ι β) where
  init := StatusInit
  step := StatusStep

end Status

end MiniRiscvOs.Kernel
