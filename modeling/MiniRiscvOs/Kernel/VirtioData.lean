import MiniRiscvOs.Kernel.Virtio
import MiniRiscvOs.Lib.BlockStore

/-!
# `MiniRiscvOs.Kernel.VirtioData`: the driver and the bytes of the blocks

`virtio_disk_rw` and `virtio_disk_isr` with what `virtioSystem` leaves out:
`b->data` of the blocks and the sectors of the disk. The driver touches
neither. The device here reads the lower 32 bits of an address in a
descriptor and drops the others: with all 64 it does not come to the header,
whose address `virtio_disk_rw` widens by its sign. It moves the bytes of a request it has taken one at a time,
in any order, while tasks and handler go on, and its step `transfer` is that
they have all been moved.

Other code loads and stores `b->data` at any time. The driver's own flag
`b->disk` says when it may: `DiskOwned`.
-/

set_option autoImplicit false

namespace MiniRiscvOs.Kernel

open MiniRiscvOs.Lib

/-- `#define BSIZE 512`: block size. -/
def BSIZE : Nat := 512

/-- The driver with its device and the bytes. `moved head` has the bytes
that the device has moved for the chain of `head` since it took it. -/
structure DataState (ι β : Type) where
  virtio : VirtioState ι β
  data : β → Fin BSIZE → Byte
  sectors : BitVec 64 → Fin BSIZE → Byte
  moved : Nat → Fin BSIZE → Bool

/-- Who makes the next step. -/
inductive DataEvent (ι β : Type) where
  /-- A step of `virtioSystem`. -/
  | virtio (e : VirtioEvent ι β)
  /-- The device moves byte `j` of the request at place `k`. -/
  | moveByte (k : Nat) (j : Fin BSIZE)
  /-- Code outside of the driver loads `b->data[j]`. -/
  | load (b : β) (j : Fin BSIZE)
  /-- Code outside of the driver stores to `b->data[j]`. -/
  | store (b : β) (j : Fin BSIZE) (v : Byte)

/-- The object at the lower 32 bits of an address. -/
def Ptr.low {β : Type} : Ptr β → Option (DiskObj β)
  | .null => none
  | .signed o | .unsigned o => some o

/-- These 32 bits are the address of the object, however it was widened. -/
theorem Ptr.value_low {β : Type} (place : DiskPlace β) {p : Ptr β} {o : DiskObj β}
    (h : p.low = some o) : (p.value place).setWidth 32 = place.addr o := by
  cases p with
  | null => simp [Ptr.low] at h
  | signed o' =>
      obtain rfl : o' = o := Option.some.inj h
      exact setWidth_signExtend (place.addr o')
  | unsigned o' =>
      obtain rfl : o' = o := Option.some.inj h
      show ((place.addr o').setWidth 64).setWidth 32 = place.addr o'
      rw [BitVec.setWidth_setWidth_of_le _ (by decide), BitVec.setWidth_eq]

/-- The place in `disk.ops` at the lower 32 bits of an address. -/
def Ptr.lowOps {β : Type} (p : Ptr β) : Option Nat :=
  match p.low with
  | some (.ops i) => some i
  | _ => none

/-- The direction a request asks for, with a data descriptor that permits
it. `true` is to the disk. -/
def BlkRequest.toDisk {β : Type} (q : BlkRequest β) : Option Bool :=
  if q.header.type = virtioBlkTOut ∧ q.data.flags &&& vringDescFWrite = 0#16 then some true
  else if q.header.type = virtioBlkTIn ∧ q.data.flags &&& vringDescFWrite ≠ 0#16 then some false
  else none

section Data

variable {ι β : Type} [DecidableEq ι] [DecidableEq β]

/-- Byte `j` goes from block `b` to sector `n`, or the other way. -/
def DataState.copyByte (s : DataState ι β) (write : Bool) (b : β) (n : BitVec 64)
    (j : Fin BSIZE) : DataState ι β :=
  if write then
    { s with sectors := Function.update s.sectors n (Function.update (s.sectors n) j (s.data b j)) }
  else { s with data := Function.update s.data b (Function.update (s.data b) j (s.sectors n j)) }

/-- Byte `j` of the chain of `head` has been moved. -/
def DataState.mark (s : DataState ι β) (head : Nat) (j : Fin BSIZE) : DataState ι β :=
  { s with moved := Function.update s.moved head (Function.update (s.moved head) j true) }

/-- The device has moved all bytes of the request at place `k`. -/
def AllMoved (s : DataState ι β) (k : Nat) : Prop :=
  ∀ r, s.virtio.io.inFlight[k]? = some r → ∀ j, s.moved r.head j = true

/-- What a step of `virtioSystem` does to `moved`: of a request just taken
no byte has been moved. -/
def movedAfter (s : DataState ι β) : VirtioEvent ι β → Nat → Fin BSIZE → Bool
  | .device .take =>
      Function.update s.moved
        (s.virtio.io.disk.availRing (s.virtio.io.lastAvail.toNat % NUM)).toNat fun _ => false
  | _ => s.moved

/-- One step of the whole. The device may do anything when a chain is no
request. -/
def DataStep (s : DataState ι β) (e : DataEvent ι β) (s' : DataState ι β) : Prop :=
  match e with
  | .virtio e => (∀ k, e = .device (.transfer k) → AllMoved s k) ∧
      ∃ v, VirtioStep s.virtio e v ∧ s' = { s with virtio := v, moved := movedAfter s e }
  | .moveByte k j => ∃ r, s.virtio.io.inFlight[k]? = some r ∧ r.stage = .taken ∧
      ∀ q b write, decodeReq Ptr.lowOps s.virtio.io.disk r.head = some q →
        q.data.addr.low = some (.data b) →
        q.data.len = BitVec.ofNat 32 BSIZE → q.toDisk = some write →
        s' = (s.copyByte write b q.header.sector j).mark r.head j
  | .load _ _ => s.virtio.io.isr = .idle ∧ s' = s
  | .store b j v => s.virtio.io.isr = .idle ∧
      s' = { s with data := Function.update s.data b (Function.update (s.data b) j v) }

/-- The driver with given contents of disk and blocks. -/
def dataSystem (ι β : Type) [DecidableEq ι] [DecidableEq β] :
    System (DataState ι β) (DataEvent ι β) where
  init s := VirtioInit s.virtio
  step := DataStep

/-- Code outside of the driver leaves `b->data` alone while `b->disk` is
`1`. -/
def DiskOwned (s : DataState ι β) : DataEvent ι β → Prop
  | .load b _ | .store b _ _ => s.virtio.io.disk.blkDisk b ≠ 1#32
  | _ => True

/-- A call is made, and `b->data` is touched, only while no call is running. -/
def OneAtATime (s : DataState ι β) : DataEvent ι β → Prop
  | .virtio (.call _ _ _) | .load _ _ | .store _ _ _ => ∀ t, s.virtio.task t = .outside
  | _ => True

/-- What the tasks see of a step: calls and returns of `virtio_disk_rw`, and
their own accesses to `b->data`. -/
def seenData (s : DataState ι β) :
    DataEvent ι β → List (BlockEvent ι β (BitVec 64) (Fin BSIZE) Byte)
  | .virtio (.call t b write) =>
      [.call t ⟨b, write, (s.virtio.blockno b * 1#32).setWidth 64⟩]
  | .virtio (.task t) =>
      match s.virtio.task t with
      | .running _ .unlock => [.ret t]
      | _ => []
  | .load b j => [.load b j (s.data b j)]
  | .store b j v => [.store b j v]
  | _ => []

end Data

end MiniRiscvOs.Kernel
