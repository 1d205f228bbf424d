import MiniRiscvOs.Kernel.VirtioDesc
import MiniRiscvOs.Lib.System

/-!
# `MiniRiscvOs.Kernel.Virtio`: the block driver, its device and its interrupt

`virtio_disk_rw` and `virtio_disk_isr` of `virtio.c`, step by step, with
the device they share memory with.

* A task's step is one statement of `virtio_disk_rw` or of what it calls.
  The loops of `alloc_desc` and `free_chain` go one test, one load or one
  assignment at a time.
* A step of `virtio_disk_isr` reads or writes one shared variable. The
  tasks stand still while it runs, the device does not.
* The device takes the entries of the available ring in order. It handles
  those it has in any order: the transfer, the status byte, the used ring,
  the index of the used ring.

What the driver stores in `addr` of a descriptor is a `Ptr`: the object, and
how its 32-bit address becomes 64 bits. `Ptr.value` is the number. The bytes
of the data buffers and of the disk are left out, since the driver reads none
of them. So the device needs no header here: its transfer is granted, and of
a chain it follows the links and the address of the status byte.
-/

set_option autoImplicit false

namespace MiniRiscvOs.Kernel

open MiniRiscvOs.Lib

/-- This many virtio descriptors. -/
def NUM : Nat := 8

/-- An object whose address the driver hands to the device. -/
inductive DiskObj (β : Type) where
  /-- `disk.ops[i]`. -/
  | ops (i : Nat)
  /-- `b->data`. -/
  | data (b : β)
  /-- `disk.info[i].status`. -/
  | status (i : Nat)
deriving DecidableEq, Repr

/-- What the driver stores in the 64-bit field `addr` of a descriptor. The
compiler widens a pointer by its sign bit, and by zeros after a cast to
`uint32`. -/
inductive Ptr (β : Type) where
  | null
  /-- A pointer as it is. -/
  | signed (o : DiskObj β)
  /-- A pointer cast to `uint32`. -/
  | unsigned (o : DiskObj β)
deriving DecidableEq, Repr

instance (β : Type) : Zero (Ptr β) := ⟨.null⟩

/-- Where the linker has put `disk` and the blocks. -/
structure DiskPlace (β : Type) where
  disk : Addr
  blk : β → Addr
  /-- `__attribute__((aligned(PGSIZE)))`. -/
  aligned : disk.toNat % 4096 = 0
  /-- `sizeof(struct disk)` is three pages. -/
  fits : disk.toNat + 12288 ≤ 2 ^ 32

/-- The address of an object: the offsets of `ops`, `info` and `status` in
`struct disk`, and of `data` in `struct blk`. -/
def DiskPlace.addr {β : Type} (place : DiskPlace β) : DiskObj β → Addr
  | .ops i => place.disk + BitVec.ofNat 32 (8280 + 16 * i)
  | .data b => place.blk b + 16#32
  | .status i => place.disk + BitVec.ofNat 32 (8216 + 8 * i)

/-- The number in `addr`. -/
def Ptr.value {β : Type} (place : DiskPlace β) : Ptr β → BitVec 64
  | .null => 0#64
  | .signed o => (place.addr o).signExtend 64
  | .unsigned o => (place.addr o).setWidth 64

/-- `virtio_blk_req_t`. -/
structure VirtioBlkReq where
  type : Word
  reserved : Word
  sector : BitVec 64
deriving DecidableEq, Repr

/-- `VIRTIO_BLK_T_IN`, a read. -/
def virtioBlkTIn : Word := 0#32

/-- `VIRTIO_BLK_T_OUT`, a write. -/
def virtioBlkTOut : Word := 1#32

/-- What the driver shares with the device and the interrupt handler: the
fields of `struct disk`, and `b->disk` of the blocks. -/
structure Disk (β : Type) where
  table : DescTable (Ptr β)
  availIdx : BitVec 16
  availRing : Nat → BitVec 16
  usedRingIdx : BitVec 16
  /-- The field `id` of the entries of `disk.used->ring`. -/
  usedRing : Nat → Word
  infoB : Nat → Option β
  infoStatus : Nat → Byte
  usedIdx : BitVec 16
  ops : Nat → VirtioBlkReq
  blkDisk : β → Word

/-- One call of `virtio_disk_rw` with its local `sector`. `id` is a ghost
that tells the calls apart. -/
structure RwCall (β : Type) where
  b : β
  write : Bool
  sector : BitVec 64
  id : Nat

section Statements

variable {β : Type} [DecidableEq β]

/-- An assignment to the descriptor table. -/
def onTable (stmt : DescTable (Ptr β) → DescTable (Ptr β)) (d : Disk β) : Disk β :=
  { d with table := stmt d.table }

/-- An assignment to `disk.ops[i]`. -/
def onOps (i : Nat) (stmt : VirtioBlkReq → VirtioBlkReq) (d : Disk β) : Disk β :=
  { d with ops := Function.update d.ops i (stmt (d.ops i)) }

/-- The assignments of `virtio_disk_rw` from `buf0->type` to `info.b`. -/
def rwFormat (c : RwCall β) (idx : List Nat) : List (Disk β → Disk β) :=
  [onOps idx[0]! fun r => { r with type := if c.write then virtioBlkTOut else virtioBlkTIn },
    onOps idx[0]! fun r => { r with reserved := 0#32 },
    onOps idx[0]! fun r => { r with sector := c.sector }]
  ++ (linkHeader idx (.signed (.ops idx[0]!)) 16#32).map onTable
  ++ (linkData idx c.write (.unsigned (.data c.b)) 512#32).map onTable
  ++ [fun d => { d with infoStatus := Function.update d.infoStatus idx[0]! 0#8 }]
  ++ (linkStatus idx (.unsigned (.status idx[0]!)) 1#32).map onTable
  ++ [fun d => { d with blkDisk := Function.update d.blkDisk c.b 1#32 },
    fun d => { d with infoB := Function.update d.infoB idx[0]! (some c.b) }]

/-- `disk.avail->ring[disk.avail->idx % NUM] = idx[0]`. -/
def availPut (idx : List Nat) (d : Disk β) : Disk β :=
  { d with availRing :=
      Function.update d.availRing (d.availIdx.toNat % NUM) (BitVec.ofNat 16 idx[0]!) }

/-- `disk.avail->idx += 1`. -/
def availBump (d : Disk β) : Disk β := { d with availIdx := d.availIdx + 1#16 }

end Statements

/-! ### The device -/

/-- The descriptors of a chain: from its head along `next` while `NEXT` is
set. `none` for a chain that leaves the table or is longer than it. -/
def chainWalk {α : Type} (num : Nat) (t : DescTable α) : Nat → Nat → Option (List Nat)
  | 0, _ => none
  | fuel + 1, i =>
      if num ≤ i then none
      else if (t.desc i).flags &&& vringDescFNext ≠ 0#16 then
        (chainWalk num t fuel (t.desc i).next.toNat).map (i :: ·)
      else some [i]

/-- A block request as the device reads it: the header, the data
descriptor and the descriptor of the status byte. -/
structure BlkRequest (β : Type) where
  header : VirtioBlkReq
  data : VirtqDesc (Ptr β)
  status : VirtqDesc (Ptr β)
deriving DecidableEq, Repr

/-- The request of a chain, if it is one: a header of 16 bytes, the data,
and one status byte that the device may write. `header` is the place in
`disk.ops` that the device finds at an address. -/
def decodeReq {β : Type} (header : Ptr β → Option Nat) (d : Disk β) (head : Nat) :
    Option (BlkRequest β) :=
  match chainWalk NUM d.table NUM head with
  | some [h, m, s] =>
      match header (d.table.desc h).addr with
      | some i =>
          if (d.table.desc h).len = 16#32 ∧ (d.table.desc s).len = 1#32 ∧
              (d.table.desc s).flags &&& vringDescFWrite ≠ 0#16 then
            some ⟨d.ops i, d.table.desc m, d.table.desc s⟩
          else none
      | none => none
  | _ => none

/-- The last descriptor of a chain. The device writes the status there. -/
def statusDesc {β : Type} (d : Disk β) (head : Nat) : Option (VirtqDesc (Ptr β)) :=
  ((chainWalk NUM d.table NUM head).bind List.getLast?).map d.table.desc

/-- How far the device is with a request it has taken. -/
inductive DevStage where
  | taken
  | transferred
  | statusWritten
  | appended
deriving DecidableEq, Repr

/-- A request the device has taken. `call` is the ghost of its chain. -/
structure InFlight where
  head : Nat
  stage : DevStage
  call : Nat
deriving DecidableEq, Repr

/-- A program point of `virtio_disk_isr`. `idle` is outside of it. -/
inductive IsrPc (β : Type) where
  | idle
  /-- The test of the `while`. -/
  | test
  /-- The load of `id`. -/
  | readId
  /-- The test of `info[id].status`. -/
  | checkStatus (id : Nat)
  /-- The load of `info[id].b`. -/
  | readB (id : Nat)
  /-- `b->disk = 0`. -/
  | clear (b : Option β)
  /-- `disk.used_idx += 1`. -/
  | bump
  /-- `panic("virtio_disk_intr status")`. -/
  | panicked
deriving DecidableEq, Repr

/-- Driver memory, device and interrupt handler. `lastAvail` is the
device's own count of the entries it has taken. The ghosts: `slotCall` is
the call that filled a slot of the available ring, and `completed` counts
for each call the completions of its chain. -/
structure DiskIo (β : Type) where
  disk : Disk β
  lastAvail : BitVec 16
  inFlight : List InFlight
  isr : IsrPc β
  slotCall : Nat → Nat
  completed : Nat → Nat

/-- A move of the device. A move on a request names its place in the list
of those taken. -/
inductive DevMove where
  | take
  | transfer (k : Nat)
  | writeStatus (k : Nat)
  | append (k : Nat)
  | bump (k : Nat)
deriving DecidableEq, Repr

section Device

variable {β : Type}

/-- `used->ring[used->idx % NUM].id = head`. -/
def usedPut (head : Nat) (d : Disk β) : Disk β :=
  { d with usedRing :=
      Function.update d.usedRing (d.usedRingIdx.toNat % NUM) (BitVec.ofNat 32 head) }

/-- The request at place `k` goes on to another stage. -/
def DiskIo.setStage (io : DiskIo β) (k : Nat) (r : InFlight) (stage : DevStage) : DiskIo β :=
  { io with inFlight := io.inFlight.set k { r with stage := stage } }

/-- One move of the device. It may do anything when the address of the status
is not that of one. -/
def DevStep (io : DiskIo β) (m : DevMove) (io' : DiskIo β) : Prop :=
  match m with
  | .take =>
      io.lastAvail ≠ io.disk.availIdx ∧
      io' = { io with
        lastAvail := io.lastAvail + 1#16
        inFlight := io.inFlight ++
          [⟨(io.disk.availRing (io.lastAvail.toNat % NUM)).toNat, .taken,
            io.slotCall (io.lastAvail.toNat % NUM)⟩] }
  | .transfer k => ∃ r, io.inFlight[k]? = some r ∧ r.stage = .taken ∧
      io' = io.setStage k r .transferred
  | .writeStatus k => ∃ r, io.inFlight[k]? = some r ∧ r.stage = .transferred ∧
      ∀ q i, statusDesc io.disk r.head = some q → q.addr = .unsigned (.status i) →
        io' = { io.setStage k r .statusWritten with
          disk := { io.disk with infoStatus := Function.update io.disk.infoStatus i 0#8 } }
  | .append k => ∃ r, io.inFlight[k]? = some r ∧ r.stage = .statusWritten ∧
      (∀ q ∈ io.inFlight, q.stage ≠ .appended) ∧
      io' = { io.setStage k r .appended with
        disk := usedPut r.head io.disk }
  | .bump k => ∃ r, io.inFlight[k]? = some r ∧ r.stage = .appended ∧
      io' = { io with
        disk := { io.disk with usedRingIdx := io.disk.usedRingIdx + 1#16 }
        inFlight := io.inFlight.eraseIdx k
        completed := Function.update io.completed r.call (io.completed r.call + 1) }

end Device

/-! ### The interrupt handler -/

section Isr

variable {β : Type} [DecidableEq β]

/-- One step of `virtio_disk_isr`. From `idle` it is an interrupt coming
in. A panic and a store through a null `b` have no next step. -/
def isrStep (io : DiskIo β) : DiskIo β :=
  match io.isr with
  | .idle => { io with isr := .test }
  | .test => { io with isr := if io.disk.usedIdx ≠ io.disk.usedRingIdx then .readId else .idle }
  | .readId =>
      { io with isr := .checkStatus (io.disk.usedRing (io.disk.usedIdx.toNat % NUM)).toNat }
  | .checkStatus id =>
      { io with isr := if io.disk.infoStatus id ≠ 0#8 then .panicked else .readB id }
  | .readB id => { io with isr := .clear (io.disk.infoB id) }
  | .clear (some b) =>
      { io with
        isr := .bump
        disk := { io.disk with blkDisk := Function.update io.disk.blkDisk b 0#32 } }
  | .clear none => io
  | .bump =>
      { io with isr := .test, disk := { io.disk with usedIdx := io.disk.usedIdx + 1#16 } }
  | .panicked => io

end Isr

/-! ### The tasks -/

/-- A program point of `virtio_disk_rw`. The descriptors it has are in the
list `idx`. -/
inductive RwPc where
  /-- `lock_acquire`: the `amoswap` and the test of its result. -/
  | acquire
  /-- `if (disk.free[i])` in `alloc_desc`. -/
  | allocTest (idx : List Nat) (i : Nat)
  /-- `disk.free[i] = 0`, then `alloc_desc` returns `i`. -/
  | allocTake (idx : List Nat) (i : Nat)
  /-- `alloc3_desc` failed and frees the descriptors of the list. -/
  | rollback (idx : List Nat)
  /-- The assignment number `k` of `rwFormat`. -/
  | format (idx : List Nat) (k : Nat)
  | ring (idx : List Nat)
  | bump (idx : List Nat)
  /-- `*R(VIRTIO_MMIO_QUEUE_NOTIFY) = 0`. -/
  | notify (idx : List Nat)
  /-- `while (b->disk == 1)`. -/
  | wait (idx : List Nat)
  /-- `disk.info[idx[0]].b = 0`. -/
  | clearB (idx : List Nat)
  /-- `free_chain`: `int flag = disk.desc[i].flags`. -/
  | chainFlags (i : Nat)
  /-- `free_chain`: `int nxt = disk.desc[i].next`. -/
  | chainNext (i : Nat) (flag : BitVec 16)
  /-- The tests of `free_desc`. -/
  | freeTest (i : Nat) (flag nxt : BitVec 16)
  /-- The assignment number `k` of `freeDescStmts`. -/
  | freeStmt (i : Nat) (flag nxt : BitVec 16) (k : Nat)
  /-- `lock_free`. -/
  | unlock
  | panicked (msg : String)
deriving DecidableEq, Repr

section Task

variable {β : Type} [DecidableEq β]

/-- Change the memory of the driver. -/
def DiskIo.onDisk (io : DiskIo β) (stmt : Disk β → Disk β) : DiskIo β :=
  { io with disk := stmt io.disk }

/-- One statement of `virtio_disk_rw` between `lock_acquire` and
`lock_free`, and the program point after it. -/
def rwStep (c : RwCall β) (io : DiskIo β) : RwPc → DiskIo β × RwPc
  | .allocTest idx i =>
      if i = NUM then (io, .rollback idx)
      else if io.disk.table.free i then (io, .allocTake idx i)
      else (io, .allocTest idx (i + 1))
  | .allocTake idx i =>
      (io.onDisk (onTable (DescTable.setFree i false)),
        if (idx ++ [i]).length = 3 then .format (idx ++ [i]) 0 else .allocTest (idx ++ [i]) 0)
  | .rollback [] => (io, .allocTest [] 0)
  | .rollback (j :: js) =>
      match freeDesc NUM io.disk.table j with
      | .ret () t => (io.onDisk (onTable fun _ => t), .rollback js)
      | .panic msg _ => (io, .panicked msg)
      | .hang => (io, .rollback (j :: js))
  | .format idx k =>
      match (rwFormat c idx)[k]? with
      | some stmt => (io.onDisk stmt, .format idx (k + 1))
      | none => (io, .ring idx)
  | .ring idx =>
      ({ io.onDisk (availPut idx) with
        slotCall := Function.update io.slotCall (io.disk.availIdx.toNat % NUM) c.id }, .bump idx)
  | .bump idx => (io.onDisk availBump, .notify idx)
  | .notify idx => (io, .wait idx)
  | .wait idx => (io, if io.disk.blkDisk c.b = 1#32 then .wait idx else .clearB idx)
  | .clearB idx =>
      (io.onDisk fun d => { d with infoB := Function.update d.infoB idx[0]! none },
        .chainFlags idx[0]!)
  | .chainFlags i => (io, .chainNext i (io.disk.table.desc i).flags)
  | .chainNext i flag => (io, .freeTest i flag (io.disk.table.desc i).next)
  | .freeTest i flag nxt =>
      if NUM ≤ i then (io, .panicked "free_desc 1")
      else if io.disk.table.free i then (io, .panicked "free_desc 2")
      else (io, .freeStmt i flag nxt 0)
  | .freeStmt i flag nxt k =>
      match (freeDescStmts i)[k]? with
      | some stmt => (io.onDisk (onTable stmt), .freeStmt i flag nxt (k + 1))
      | none => (io, if flag &&& vringDescFNext ≠ 0#16 then .chainFlags nxt.toNat else .unlock)
  | .panicked msg => (io, .panicked msg)
  | .acquire => (io, .acquire)
  | .unlock => (io, .unlock)

end Task

/-- A task outside of the driver, or in a call of it. -/
inductive RwTask (β : Type) where
  | outside
  | running (c : RwCall β) (pc : RwPc)

/-- The whole: driver memory with device and handler, `vdisk_lock`,
`b->blockno`, the tasks. The ghosts: the next call number, and the numbers
of the calls that have returned. -/
structure VirtioState (ι β : Type) where
  io : DiskIo β
  vdiskLock : Word
  blockno : β → Word
  task : ι → RwTask β
  nextCall : Nat
  returned : List Nat

/-- Who makes the next step. -/
inductive VirtioEvent (ι β : Type) where
  /-- Some code outside of the driver chooses a block number. -/
  | setBlockno (b : β) (n : Word)
  /-- A task calls `virtio_disk_rw`. -/
  | call (t : ι) (b : β) (write : Bool)
  /-- A task in `virtio_disk_rw` makes a step. -/
  | task (t : ι)
  /-- `virtio_disk_isr` makes a step. -/
  | isr
  | device (m : DevMove)

section System

variable {ι β : Type} [DecidableEq ι] [DecidableEq β]

/-- A step of a task in its call `c` at `pc`. -/
def taskStep (s : VirtioState ι β) (t : ι) (c : RwCall β) : RwPc → VirtioState ι β
  | .acquire =>
      { s with
        vdiskLock := 1#32
        task := Function.update s.task t
          (.running c (if s.vdiskLock = 0#32 then .allocTest [] 0 else .acquire)) }
  | .unlock =>
      { s with
        vdiskLock := 0#32
        task := Function.update s.task t .outside
        returned := c.id :: s.returned }
  | pc =>
      { s with
        io := (rwStep c s.io pc).1
        task := Function.update s.task t (.running c (rwStep c s.io pc).2) }

/-- One step of the whole. While the handler runs, no task does. -/
def VirtioStep (s : VirtioState ι β) (e : VirtioEvent ι β) (s' : VirtioState ι β) : Prop :=
  match e with
  | .setBlockno b n => s.io.isr = .idle ∧
      s' = { s with blockno := Function.update s.blockno b n }
  | .call t b write => s.io.isr = .idle ∧ s.task t = .outside ∧
      s' = { s with
        -- `b->blockno * (BSIZE / 512)`, and the factor is 1.
        task := Function.update s.task t
          (.running ⟨b, write, (s.blockno b * 1#32).setWidth 64, s.nextCall⟩ .acquire)
        nextCall := s.nextCall + 1 }
  | .task t => s.io.isr = .idle ∧ ∃ c pc, s.task t = .running c pc ∧ s' = taskStep s t c pc
  | .isr => s' = { s with io := isrStep s.io }
  | .device m => ∃ io, DevStep s.io m io ∧ s' = { s with io := io }

/-- What `virtio_disk_init` leaves: rings and `used_idx` zero, descriptors
free, lock free. The device has taken nothing and no call is running. -/
def VirtioInit (s : VirtioState ι β) : Prop :=
  (∀ i < NUM, s.io.disk.table.free i = true) ∧ (∀ i, s.io.disk.infoB i = none) ∧
  s.io.disk.availIdx = 0#16 ∧ s.io.disk.usedRingIdx = 0#16 ∧ s.io.disk.usedIdx = 0#16 ∧
  s.io.lastAvail = 0#16 ∧ s.io.inFlight = [] ∧ s.io.isr = .idle ∧
  (∀ id, s.io.completed id = 0) ∧ s.vdiskLock = 0#32 ∧ (∀ t, s.task t = .outside) ∧
  s.nextCall = 0 ∧ s.returned = []

/-- The driver with its device. -/
def virtioSystem (ι β : Type) [DecidableEq ι] [DecidableEq β] :
    System (VirtioState ι β) (VirtioEvent ι β) where
  init := VirtioInit
  step := VirtioStep

end System

end MiniRiscvOs.Kernel
