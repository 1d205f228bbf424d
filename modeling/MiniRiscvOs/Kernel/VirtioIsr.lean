import MiniRiscvOs.Kernel.Virtio
import MiniRiscvOs.Lib.Ring

/-!
# `MiniRiscvOs.Kernel.VirtioIsr`: one run of `virtio_disk_isr`

The handler from its first test of `used_idx` to its return, with a device
that goes on. `disk.used_idx` and `disk.used->idx` are free-running 16-bit
indices over the `NUM` slots of the used ring, so what the handler has yet
to consume is `unconsumed`.

Between any two steps of the handler the device may write the status byte
of a request it has yet to publish, fill the next slot of the used ring, and
count it in `used->idx`. It has at most `NUM` entries there. The tasks stand
still.
-/

set_option autoImplicit false

namespace MiniRiscvOs.Kernel

open MiniRiscvOs.Lib

variable {β : Type}

/-- The entries of the used ring from `used_idx` to `used->idx`. -/
def unconsumed (d : Disk β) : List Word :=
  Ring.entries NUM d.usedRing d.usedIdx d.usedRingIdx

/-- The entry names a request with status `0` and `info[id].b` set. -/
def Completed (d : Disk β) (id : Word) : Prop :=
  d.infoStatus id.toNat = 0#8 ∧ ∃ b, d.infoB id.toNat = some b

/-- The memory with the handler. The ghosts: the entries it has loaded, and
the blocks whose `disk` it has cleared, in order. -/
structure IsrRun (β : Type) where
  io : DiskIo β
  loaded : List Word
  cleared : List β

/-- Who makes the next step. -/
inductive IsrEvent where
  /-- `virtio_disk_isr` makes a step. -/
  | handler
  /-- The device writes a status byte. -/
  | writeStatus (i : Nat) (status : Byte)
  /-- The device fills the next slot of the used ring. -/
  | append (id : Word)
  /-- The device counts the entry in that slot. -/
  | publish (id : Word)
deriving DecidableEq

/-- The entries that the device publishes in a run, in order. -/
def published (es : List IsrEvent) : List Word :=
  es.filterMap fun
    | .publish id => some id
    | _ => none

/-- The entry that the next step of the handler loads. -/
def isrLoads (io : DiskIo β) : List Word :=
  match io.isr with
  | .readId => [io.disk.usedRing (io.disk.usedIdx.toNat % NUM)]
  | _ => []

/-- The block that the next step of the handler clears. -/
def isrClears (io : DiskIo β) : List β :=
  match io.isr with
  | .clear (some b) => [b]
  | _ => []

/-- One step. The run is over when the handler is idle. -/
def IsrRunStep [DecidableEq β] (s : IsrRun β) (e : IsrEvent) (s' : IsrRun β) : Prop :=
  s.io.isr ≠ .idle ∧
  match e with
  | .handler => s' = ⟨isrStep s.io, s.loaded ++ isrLoads s.io, s.cleared ++ isrClears s.io⟩
  | .writeStatus i status =>
      (∀ id ∈ unconsumed s.io.disk, id.toNat = i → status = 0#8) ∧
      s' = { s with
        io := s.io.onDisk fun d => { d with infoStatus := Function.update d.infoStatus i status } }
  | .append id =>
      (unconsumed s.io.disk).length < NUM ∧
      s' = { s with io := s.io.onDisk (usedPut id.toNat) }
  | .publish id =>
      (unconsumed s.io.disk).length < NUM ∧ Completed s.io.disk id ∧
      s.io.disk.usedRing (s.io.disk.usedRingIdx.toNat % NUM) = id ∧
      s' = { s with io := s.io.onDisk fun d => { d with usedRingIdx := d.usedRingIdx + 1#16 } }

/-- The handler is at its first test. The device has published at most `NUM`
entries since the last run. -/
def IsrEntry (s : IsrRun β) : Prop :=
  s.io.isr = .test ∧ (unconsumed s.io.disk).length ≤ NUM ∧
  (∀ id ∈ unconsumed s.io.disk, Completed s.io.disk id) ∧ s.loaded = [] ∧ s.cleared = []

/-- The runs of `virtio_disk_isr` beside the device. -/
def isrSystem (β : Type) [DecidableEq β] : System (IsrRun β) IsrEvent where
  init := IsrEntry
  step := IsrRunStep

end MiniRiscvOs.Kernel
