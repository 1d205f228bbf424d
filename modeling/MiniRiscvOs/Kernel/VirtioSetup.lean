import MiniRiscvOs.Kernel.StringMove
import MiniRiscvOs.Kernel.Virtio

/-!
# `MiniRiscvOs.Kernel.VirtioSetup`: `virtio_disk_init`

The initialisation of the block device over its registers at
`VIRTIO_MMIO_BASE`. What a read of a register gives is up to the device,
which may look at all accesses before it, so the device is a function from
the accesses to the answer. The accesses stay in a log.

`QueueRegs` is the other end: a legacy device that takes the written values
in order, and finds descriptors, available ring and used ring in memory from
the page number, the page size, the number of descriptors and the alignment
it has been told.
-/

set_option autoImplicit false

namespace MiniRiscvOs.Kernel

open MiniRiscvOs.Lib

/-- The registers, by their offset from `VIRTIO_MMIO_BASE`. -/
inductive VirtioReg where
  | magicValue
  | version
  | deviceId
  | vendorId
  | deviceFeatures
  | driverFeatures
  | guestPageSize
  | queueSel
  | queueNumMax
  | queueNum
  | queueAlign
  | queuePfn
  | queueReady
  | status
  | queueDescLow
  | queueAvailLow
  | queueUsedLow
deriving DecidableEq, Repr

/-- An access to a register, with the value. -/
inductive MmioAccess where
  | read (r : VirtioReg) (v : Word)
  | write (r : VirtioReg) (v : Word)
deriving DecidableEq, Repr

/-- What a read of a register gives after the accesses so far. -/
abbrev MmioDevice := List MmioAccess → VirtioReg → Word

/-- `PGSIZE`. -/
def virtioPgsize : Word := 4096#32

/-- What `virtio_disk_init` reads and writes: the memory with `disk.pages`,
the pointers, `disk.free[]`, the lock, the accesses to the device, and what
has been printed. -/
structure SetupState where
  mem : Mem
  desc : Addr
  avail : Addr
  used : Addr
  free : Nat → Byte
  vdiskLock : Word
  log : List MmioAccess
  output : List String

/-- The state with more accesses in its log. -/
def SetupState.said (s : SetupState) (as : List MmioAccess) : SetupState :=
  { s with log := s.log ++ as }

/-- `*R(r)`. -/
def readReg (dev : MmioDevice) (r : VirtioReg) (s : SetupState) : Word × SetupState :=
  (dev s.log r, s.said [.read r (dev s.log r)])

/-- `*R(r) = v`. -/
def writeReg (r : VirtioReg) (v : Word) (s : SetupState) : SetupState := s.said [.write r v]

/-- What a block device has in its first four registers. -/
def diskIdentity : List (VirtioReg × Word) :=
  [(.magicValue, 0x74726976#32), (.version, 1#32), (.deviceId, 2#32), (.vendorId, 0x554d4551#32)]

/-- The condition `*R(r) != v || ...`. It stops at the first that holds. -/
def anyDiffers (dev : MmioDevice) : List (VirtioReg × Word) → SetupState → Bool × SetupState
  | [], s => (false, s)
  | (r, v) :: rest, s =>
      let (w, s) := readReg dev r s
      if w ≠ v then (true, s) else anyDiffers dev rest s

/-- The feature bits that the driver clears, in its order:
`VIRTIO_BLK_F_RO`, `VIRTIO_BLK_F_SCSI`, `VIRTIO_BLK_F_CONFIG_WCE`,
`VIRTIO_BLK_F_MQ`, `VIRTIO_F_ANY_LAYOUT`, `VIRTIO_RING_F_EVENT_IDX` and
`VIRTIO_RING_F_INDIRECT_DESC`. -/
def clearedFeatures : List Nat := [5, 7, 11, 12, 27, 29, 28]

/-- `features &= ~(1 << bit)`, for each of the bits. -/
def clearBits (features : Word) (bits : List Nat) : Word :=
  bits.foldl (fun f bit => f &&& ~~~(1#32 <<< bit)) features

/-- `VIRTIO_CONFIG_S_ACKNOWLEDGE`, `_DRIVER`, `_FEATURES_OK` and
`_DRIVER_OK`. -/
def configSAcknowledge : Word := 1#32

/-- `VIRTIO_CONFIG_S_DRIVER` -/
def configSDriver : Word := 2#32

/-- `VIRTIO_CONFIG_S_FEATURES_OK` -/
def configSFeaturesOk : Word := 8#32

/-- `VIRTIO_CONFIG_S_DRIVER_OK` -/
def configSDriverOk : Word := 4#32

/-- The reset of the device and the negotiation, up to the size of page. -/
def negotiate (dev : MmioDevice) (s : SetupState) : SetupState :=
  let status := 0#32
  let s := writeReg .status status s
  let status := status ||| configSAcknowledge
  let s := writeReg .status status s
  let status := status ||| configSDriver
  let s := writeReg .status status s
  let (features, s) := readReg dev .deviceFeatures s
  let s := writeReg .driverFeatures (clearBits features clearedFeatures) s
  let status := status ||| configSFeaturesOk
  let s := writeReg .status status s
  let status := status ||| configSDriverOk
  let s := writeReg .status status s
  writeReg .guestPageSize virtioPgsize s

/-- Queue 0, with its rings in `pages`, and the end of
`virtio_disk_init`. -/
def setupQueue (pages : Addr) (s : SetupState) : SetupState :=
  let s := writeReg .queueNum (BitVec.ofNat 32 NUM) s
  -- `sizeof(disk.pages)` is two pages.
  let s := { s with mem := (memset s.mem pages 0#32 (2#32 * virtioPgsize)).1 }
  let s := writeReg .queuePfn (pages / virtioPgsize) s
  let s := writeReg .queueAlign virtioPgsize s
  let s := writeReg .queueReady 1#32 s
  -- `sizeof(virtq_desc_t)` is 16.
  let s := { s with
    desc := pages
    avail := pages + BitVec.ofNat 32 (NUM * 16)
    used := pages + virtioPgsize }
  let s := writeReg .queueDescLow s.desc s
  let s := writeReg .queueAvailLow s.avail s
  let s := writeReg .queueUsedLow s.used s
  let s := { s with
    free := (List.range NUM).foldl (fun free i => Function.update free i 1#8) s.free }
  { s with output := s.output ++ ["Disk init work is success!\n"] }

/-- `lock_init(&disk.vdisk_lock)`. -/
def SetupState.lockInit (s : SetupState) : SetupState := { s with vdiskLock := 0#32 }

/-- `virtio_disk_init`. `pages` is the address of `disk.pages`. -/
def virtioDiskInit (dev : MmioDevice) (pages : Addr) (s : SetupState) : Outcome SetupState Unit :=
  match anyDiffers dev diskIdentity s.lockInit with
  | (true, s) => .panic "could not find virtio disk" s
  | (false, s) =>
      let s := negotiate dev s
      let s := writeReg .queueSel 0#32 s
      let (max, s) := readReg dev .queueNumMax s
      if max = 0#32 then .panic "virtio disk has no queue 0\n" s
      else if max < BitVec.ofNat 32 NUM then .panic "virtio disk max queue too short\n" s
      else .ret () (setupQueue pages s)

/-! ### The legacy device -/

/-- What a legacy device with one queue has been told. -/
structure QueueRegs where
  status : Word
  features : Word
  pageSize : Word
  sel : Word
  num : Word
  align : Word
  pfn : Word
deriving DecidableEq, Repr

/-- The device after a reset. -/
def queueReset : QueueRegs := ⟨0#32, 0#32, 0#32, 0#32, 0#32, 0#32, 0#32⟩

/-- The device takes an access. Writing `0` to the status resets it, and the
registers that are not legacy ones are ignored. -/
def QueueRegs.take (q : QueueRegs) : MmioAccess → QueueRegs
  | .write .status v => if v = 0#32 then queueReset else { q with status := v }
  | .write .driverFeatures v => { q with features := v }
  | .write .guestPageSize v => { q with pageSize := v }
  | .write .queueSel v => { q with sel := v }
  | .write .queueNum v => { q with num := v }
  | .write .queueAlign v => { q with align := v }
  | .write .queuePfn v => { q with pfn := v }
  | _ => q

/-- The least multiple of `a` from `n` on. -/
def alignUp (n a : Nat) : Nat := (n + (a - 1)) / a * a

/-- Where the descriptors are. -/
def QueueRegs.descAddr (q : QueueRegs) : Nat := q.pfn.toNat * q.pageSize.toNat

/-- The available ring follows the descriptors, of 16 bytes each. -/
def QueueRegs.availAddr (q : QueueRegs) : Nat := q.descAddr + 16 * q.num.toNat

/-- The used ring follows the available ring with its `flags`, `idx` and
`used_event`, at the next multiple of the alignment. -/
def QueueRegs.usedAddr (q : QueueRegs) : Nat :=
  q.descAddr + alignUp (16 * q.num.toNat + 2 * (3 + q.num.toNat)) q.align.toNat

/-! ### The driver's view of its memory -/

/-- A half word of memory. -/
def load16 (m : Mem) (a : Addr) : BitVec 16 := m (a + 1#32) ++ m a

/-- `struct disk` as the driver finds it in memory. The fields that
`virtio_disk_init` leaves alone are those of `d`. `ptr` says what the object
at an address is. -/
def SetupState.view {β : Type} (s : SetupState) (ptr : BitVec 64 → Ptr β) (d : Disk β) : Disk β :=
  { d with
    table :=
      { desc := fun i =>
          let a := s.desc + BitVec.ofNat 32 (16 * i)
          { addr := ptr (load32 s.mem (a + 4#32) ++ load32 s.mem a)
            len := load32 s.mem (a + 8#32)
            flags := load16 s.mem (a + 12#32)
            next := load16 s.mem (a + 14#32) }
        free := fun i => s.free i ≠ 0#8 }
    availIdx := load16 s.mem (s.avail + 2#32)
    availRing := fun k => load16 s.mem (s.avail + BitVec.ofNat 32 (4 + 2 * k))
    usedRingIdx := load16 s.mem (s.used + 2#32)
    usedRing := fun k => load32 s.mem (s.used + BitVec.ofNat 32 (4 + 8 * k)) }

/-- The driver and a device that has just been reset, with no call yet. -/
def SetupState.start {β : Type} (ι : Type) (s : SetupState) (ptr : BitVec 64 → Ptr β) (d : Disk β)
    (blockno : β → Word) : VirtioState ι β where
  io :=
    { disk := s.view ptr d
      lastAvail := 0#16
      inFlight := []
      isr := .idle
      slotCall := fun _ => 0
      completed := fun _ => 0 }
  vdiskLock := s.vdiskLock
  blockno := blockno
  task := fun _ => .outside
  nextCall := 0
  returned := []

end MiniRiscvOs.Kernel
