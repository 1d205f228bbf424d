import MiniRiscvOs.Kernel.Virtio
import MiniRiscvOs.Lib.Ring

/-!
# `MiniRiscvOs.Kernel.VirtioRw`: one call of `virtio_disk_rw` up to its notify

A call from the return of `lock_acquire` to the store to
`VIRTIO_MMIO_QUEUE_NOTIFY`. The lock keeps other calls out. The device and
the interrupt handler go on in between, and all that is asked of them is
`SameRequests`: they do not write the descriptors, `disk.ops`, the available
ring or `disk.info[].b`.
-/

set_option autoImplicit false

namespace MiniRiscvOs.Kernel

open MiniRiscvOs.Lib

variable {β : Type}

/-- The call `virtio_disk_rw(b, write)`. Its `sector` is
`b->blockno * (BSIZE / 512)`, and the factor is 1. -/
def rwCall (b : β) (write : Bool) (blockno : Word) (id : Nat) : RwCall β :=
  ⟨b, write, (blockno * 1#32).setWidth 64, id⟩

/-- The place in `disk.ops` of the header at an address. The device has the
memory of the kernel at the addresses below `2 ^ 32`. -/
def DiskPlace.opsAt (place : DiskPlace β) (p : Ptr β) : Option Nat :=
  (List.range NUM).find? fun i => p.value place = (place.addr (.ops i)).setWidth 64

/-- The entries of the available ring from index `q` on. -/
def availEntries (d : Disk β) (q : BitVec 16) : List (BitVec 16) :=
  Ring.entries NUM d.availRing q d.availIdx

/-- The memory that makes up the requests is the same. -/
structure SameRequests (d d' : Disk β) : Prop where
  table : d'.table = d.table
  ops : d'.ops = d.ops
  availIdx : d'.availIdx = d.availIdx
  availRing : d'.availRing = d.availRing
  infoB : d'.infoB = d.infoB

/-- The same requests as itself. -/
theorem SameRequests.refl (d : Disk β) : SameRequests d d := ⟨rfl, rfl, rfl, rfl, rfl⟩

/-- The relation is transitive. -/
theorem SameRequests.trans {d d' d'' : Disk β} (h : SameRequests d d')
    (h' : SameRequests d' d'') : SameRequests d d'' :=
  ⟨h'.table.trans h.table, h'.ops.trans h.ops, h'.availIdx.trans h.availIdx,
    h'.availRing.trans h.availRing, h'.infoB.trans h.infoB⟩

/-- Who makes the next step. -/
inductive RwEvent where
  /-- The call makes a step. -/
  | driver
  /-- The device or the interrupt handler does. -/
  | other
deriving DecidableEq

variable [DecidableEq β]

/-- One step of a call that has yet to notify the device. -/
def RwRunStep (c : RwCall β) (s : DiskIo β × RwPc) (e : RwEvent) (s' : DiskIo β × RwPc) : Prop :=
  match e with
  | .driver => (∀ idx, s.2 ≠ .notify idx) ∧ s' = rwStep c s.1 s.2
  | .other => SameRequests s.1.disk s'.1.disk ∧ s'.2 = s.2

/-- The runs of a call that has the lock and finds three free descriptors. -/
def rwSystem (c : RwCall β) : System (DiskIo β × RwPc) RwEvent where
  init s := 3 ≤ (List.range NUM).countP s.1.disk.table.free ∧ s.2 = .allocTest [] 0
  step := RwRunStep c

end MiniRiscvOs.Kernel
