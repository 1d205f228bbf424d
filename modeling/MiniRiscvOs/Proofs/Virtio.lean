import MiniRiscvOs.Kernel.Virtio
import MiniRiscvOs.Proofs.VirtioDesc

/-!
# `MiniRiscvOs.Proofs.Virtio`: the block driver in any interleaving

Tasks, device and interrupt handler share the descriptor table, the rings
and `b->disk`, and the handler takes no lock. The main result is
`virtioDriver_safe`: at most one chain is under way, a call returns after
its own chain has completed once, the handler meets neither a null `b` nor
a bad status, and a free lock means an empty pool.

* `Phase` says for the one task past `lock_acquire` what its program point
  means for the memory, the device and the handler.
* While the driver formats a request or frees one, nothing is under way
  (`Quiet`), so the device cannot move (`Quiet.not_devStep`) and the
  handler finds nothing to do (`Quiet.isrStep`).
* In between, `Served` follows the one request through the available ring,
  the device, the used ring and the handler. The indices are compared for
  equality only, so their wrap-around needs no case of its own.
-/

set_option autoImplicit false

namespace MiniRiscvOs.Proofs

open MiniRiscvOs.Lib
open MiniRiscvOs.Kernel

variable {β : Type}

/-! ### The one request -/

/-- Nothing is under way: each entry is taken, completed and consumed. -/
structure Quiet (io : DiskIo β) : Prop where
  taken : io.lastAvail = io.disk.availIdx
  inFlight : io.inFlight = []
  consumed : io.disk.usedIdx = io.disk.usedRingIdx
  isr : io.isr = .idle ∨ io.isr = .test

/-- The descriptors in use are those from `lo` to `hi`. -/
def InUse (d : Disk β) (lo hi : Nat) : Prop :=
  ∀ i < NUM, (d.table.free i = true ↔ i < lo ∨ hi ≤ i)

/-- No `info[].b` is set. -/
def NoInfo (d : Disk β) : Prop := ∀ i, d.infoB i = none

/-- From `lo` on the table links descriptors `0`, `1` and `2`. -/
def Links (d : Disk β) (lo : Nat) : Prop :=
  ∀ i, lo ≤ i → i < 3 →
    ((d.table.desc i).flags &&& vringDescFNext ≠ 0#16 ↔ i < 2) ∧
    (i < 2 → (d.table.desc i).next.toNat = i + 1)

/-- The request of a call is in descriptors `0`, `1` and `2`, for the
device to read. -/
structure Submitted (c : RwCall β) (d : Disk β) : Prop where
  inUse : InUse d 0 3
  links : Links d 0
  statusAt : ∃ q, statusDesc d 0 = some q ∧ q.addr = .unsigned (.status 0)
  status : d.infoStatus 0 = 0#8
  infoB : d.infoB 0 = some c.b
  noInfo : ∀ i, i ≠ 0 → d.infoB i = none

/-- How far the request of a call is, from the bump of `avail->idx` on. -/
inductive Served (c : RwCall β) (io : DiskIo β) : Prop where
  /-- The device has yet to take it. -/
  | published (taken : io.lastAvail + 1#16 = io.disk.availIdx) (inFlight : io.inFlight = [])
      (consumed : io.disk.usedIdx = io.disk.usedRingIdx)
      (isr : io.isr = .idle ∨ io.isr = .test)
      (head : (io.disk.availRing (io.lastAvail.toNat % NUM)).toNat = 0)
      (slot : io.slotCall (io.lastAvail.toNat % NUM) = c.id)
      (disk : io.disk.blkDisk c.b = 1#32) (completed : io.completed c.id = 0)
  /-- The device has it. -/
  | inDevice (stage : DevStage) (taken : io.lastAvail = io.disk.availIdx)
      (inFlight : io.inFlight = [⟨0, stage, c.id⟩])
      (consumed : io.disk.usedIdx = io.disk.usedRingIdx)
      (isr : io.isr = .idle ∨ io.isr = .test)
      (used : stage = .appended → io.disk.usedRing (io.disk.usedRingIdx.toNat % NUM) = 0#32)
      (disk : io.disk.blkDisk c.b = 1#32) (completed : io.completed c.id = 0)
  /-- It is in the used ring, and the handler is on its way to clear
  `b->disk`. -/
  | used (taken : io.lastAvail = io.disk.availIdx) (inFlight : io.inFlight = [])
      (consumed : io.disk.usedIdx + 1#16 = io.disk.usedRingIdx)
      (used : io.disk.usedRing (io.disk.usedIdx.toNat % NUM) = 0#32)
      (isr : io.isr = .idle ∨ io.isr = .test ∨ io.isr = .readId ∨ io.isr = .checkStatus 0 ∨
        io.isr = .readB 0 ∨ io.isr = .clear (some c.b))
      (disk : io.disk.blkDisk c.b = 1#32) (completed : io.completed c.id = 1)
  /-- The handler has cleared `b->disk` and not yet counted the entry. -/
  | cleared (taken : io.lastAvail = io.disk.availIdx) (inFlight : io.inFlight = [])
      (consumed : io.disk.usedIdx + 1#16 = io.disk.usedRingIdx) (isr : io.isr = .bump)
      (disk : io.disk.blkDisk c.b = 0#32) (completed : io.completed c.id = 1)
  /-- It is done. -/
  | done (quiet : Quiet io) (disk : io.disk.blkDisk c.b = 0#32)
      (completed : io.completed c.id = 1)

/-! ### Nothing under way -/

/-- With nothing under way the device has no move. -/
theorem Quiet.not_devStep {io io' : DiskIo β} (h : Quiet io) (m : DevMove) :
    ¬ DevStep io m io' := by
  have hnone : ∀ (k : Nat) (r : InFlight), io.inFlight[k]? ≠ some r := by
    intro k r
    rw [h.inFlight]
    simp
  cases m with
  | take => exact fun hstep => hstep.1 h.taken
  | transfer k | writeStatus k | append k | bump k =>
      rintro ⟨r, hr, -⟩
      exact hnone k r hr

/-- With no entry to consume the handler leaves everything as it is. -/
theorem isrStep_of_consumed [DecidableEq β] {io : DiskIo β}
    (hisr : io.isr = .idle ∨ io.isr = .test) (hcons : io.disk.usedIdx = io.disk.usedRingIdx) :
    ∃ pc, isrStep io = { io with isr := pc } ∧ (pc = .idle ∨ pc = .test) := by
  rcases hisr with hidle | htest
  · refine ⟨.test, ?_, Or.inr rfl⟩
    simp [isrStep, hidle]
  · refine ⟨.idle, ?_, Or.inl rfl⟩
    simp [isrStep, htest, hcons]

/-! ### The request under way -/

/-- What the device and the handler leave alone in a submitted request. -/
theorem Submitted.congr {c : RwCall β} {d d' : Disk β} (h : Submitted c d)
    (htable : d'.table = d.table) (hstatus : d'.infoStatus 0 = 0#8) (hinfo : d'.infoB = d.infoB) :
    Submitted c d' := by
  have hlast : statusDesc d' 0 = statusDesc d 0 := by
    unfold statusDesc
    rw [htable]
  refine ⟨?_, ?_, by rw [hlast]; exact h.statusAt, hstatus, by rw [hinfo]; exact h.infoB,
    by rw [hinfo]; exact h.noInfo⟩
  · intro i hi
    rw [htable]
    exact h.inUse i hi
  · intro i hle hlt
    rw [htable]
    exact h.links i hle hlt

/-- A move of the device takes the request one stage on, and counts a
completion for its call and no other. -/
theorem Served.devStep {c : RwCall β} {io io' : DiskIo β} (hsub : Submitted c io.disk)
    (h : Served c io) {m : DevMove} (hstep : DevStep io m io') :
    Submitted c io'.disk ∧ Served c io' ∧
      ∀ id, id ≠ c.id → io'.completed id = io.completed id := by
  obtain ⟨q, hq, hstatus⟩ := hsub.statusAt
  cases h with
  | published taken inFlight consumed isr head slot disk completed =>
      cases m with
      | take =>
          obtain ⟨-, rfl⟩ := hstep
          refine ⟨hsub, .inDevice .taken taken ?_ consumed isr (by simp) disk completed,
            fun _ _ => rfl⟩
          show io.inFlight ++ _ = _
          rw [inFlight, head, slot]
          rfl
      | transfer k | writeStatus k | append k | bump k =>
          obtain ⟨r, hr, -⟩ := hstep
          simp [inFlight] at hr
  | inDevice stage taken inFlight consumed isr used disk completed =>
      -- The only place in the list is the first.
      have hplace : ∀ {k : Nat} {r : InFlight}, io.inFlight[k]? = some r →
          k = 0 ∧ r = ⟨0, stage, c.id⟩ := by
        intro k r hr
        rw [inFlight] at hr
        cases k with
        | zero => exact ⟨rfl, by simpa using hr.symm⟩
        | succ k => simp at hr
      cases m with
      | take => exact absurd taken hstep.1
      | transfer k =>
          obtain ⟨r, hr, hstage, rfl⟩ := hstep
          obtain ⟨rfl, rfl⟩ := hplace hr
          refine ⟨hsub, .inDevice .transferred taken ?_ consumed isr (by simp) disk completed,
            fun _ _ => rfl⟩
          simp [DiskIo.setStage, inFlight]
      | writeStatus k =>
          obtain ⟨r, hr, hstage, hstep⟩ := hstep
          obtain ⟨rfl, rfl⟩ := hplace hr
          obtain rfl := hstep q 0 hq hstatus
          -- The status the device writes is the `0` the driver left there.
          refine ⟨hsub.congr rfl (Function.update_self 0 0#8 io.disk.infoStatus) rfl,
            .inDevice .statusWritten taken ?_ consumed isr (by simp) disk completed,
            fun _ _ => rfl⟩
          simp [DiskIo.setStage, inFlight]
      | append k =>
          obtain ⟨r, hr, hstage, -, rfl⟩ := hstep
          obtain ⟨rfl, rfl⟩ := hplace hr
          refine ⟨hsub.congr rfl hsub.status rfl,
            .inDevice .appended taken ?_ consumed isr (fun _ => ?_) disk completed,
            fun _ _ => rfl⟩
          · simp [DiskIo.setStage, inFlight]
          · simp [usedPut]
      | bump k =>
          obtain ⟨r, hr, hstage, rfl⟩ := hstep
          obtain ⟨rfl, rfl⟩ := hplace hr
          -- `used->idx` is now one past `used_idx`: the handler has work.
          refine ⟨hsub.congr rfl hsub.status rfl,
            .used taken ?_ (congrArg (· + 1#16) consumed) ?_ ?_ disk ?_, fun id hid => ?_⟩
          · simp [inFlight]
          · show io.disk.usedRing (io.disk.usedIdx.toNat % NUM) = 0#32
            rw [consumed]
            exact used hstage
          · rcases isr with h | h
            · exact Or.inl h
            · exact Or.inr (Or.inl h)
          · simp [completed]
          · simp [hid]
  | used taken inFlight consumed used isr disk completed =>
      cases m with
      | take => exact absurd taken hstep.1
      | transfer k | writeStatus k | append k | bump k =>
          obtain ⟨r, hr, -⟩ := hstep
          simp [inFlight] at hr
  | cleared taken inFlight consumed isr disk completed =>
      cases m with
      | take => exact absurd taken hstep.1
      | transfer k | writeStatus k | append k | bump k =>
          obtain ⟨r, hr, -⟩ := hstep
          simp [inFlight] at hr
  | done quiet disk completed => exact absurd hstep (quiet.not_devStep m)

variable [DecidableEq β]

/-- A step of the handler on a submitted request. It finds the entry of the
used ring once, with status `0` and the `b` of the call. -/
theorem Served.isrStep {c : RwCall β} {io : DiskIo β} (hsub : Submitted c io.disk)
    (h : Served c io) :
    Submitted c (isrStep io).disk ∧ Served c (isrStep io) ∧
      (Kernel.isrStep io).completed = io.completed := by
  cases h with
  | published taken inFlight consumed isr head slot disk completed =>
      obtain ⟨pc, heq, hpc⟩ := isrStep_of_consumed isr consumed
      rw [heq]
      exact ⟨hsub, .published taken inFlight consumed hpc head slot disk completed, rfl⟩
  | inDevice stage taken inFlight consumed isr used disk completed =>
      obtain ⟨pc, heq, hpc⟩ := isrStep_of_consumed isr consumed
      rw [heq]
      exact ⟨hsub, .inDevice stage taken inFlight consumed hpc used disk completed, rfl⟩
  | used taken inFlight consumed used isr disk completed =>
      -- One more than itself is never itself, also where the counter wraps.
      have hne : io.disk.usedIdx ≠ io.disk.usedRingIdx := by
        rw [← consumed]
        bv_omega
      -- One case for each statement of the handler up to `b->disk = 0`.
      rcases isr with h | h | h | h | h | h
      · have heq : Kernel.isrStep io = { io with isr := .test } := by
          simp [Kernel.isrStep, h]
        rw [heq]
        exact ⟨hsub, .used taken inFlight consumed used (by simp) disk completed, rfl⟩
      · have heq : Kernel.isrStep io = { io with isr := .readId } := by
          simp [Kernel.isrStep, h, hne]
        rw [heq]
        exact ⟨hsub, .used taken inFlight consumed used (by simp) disk completed, rfl⟩
      · have heq : Kernel.isrStep io = { io with isr := .checkStatus 0 } := by
          simp [Kernel.isrStep, h, used]
        rw [heq]
        exact ⟨hsub, .used taken inFlight consumed used (by simp) disk completed, rfl⟩
      · have heq : Kernel.isrStep io = { io with isr := .readB 0 } := by
          simp [Kernel.isrStep, h, hsub.status]
        rw [heq]
        exact ⟨hsub, .used taken inFlight consumed used (by simp) disk completed, rfl⟩
      · have heq : Kernel.isrStep io = { io with isr := .clear (some c.b) } := by
          simp [Kernel.isrStep, h, hsub.infoB]
        rw [heq]
        exact ⟨hsub, .used taken inFlight consumed used (by simp) disk completed, rfl⟩
      · have heq : Kernel.isrStep io = { io with
            isr := .bump
            disk := { io.disk with blkDisk := Function.update io.disk.blkDisk c.b 0#32 } } := by
          simp [Kernel.isrStep, h]
        rw [heq]
        exact ⟨hsub.congr rfl hsub.status rfl,
          .cleared taken inFlight consumed rfl (Function.update_self c.b _ _) completed, rfl⟩
  | cleared taken inFlight consumed isr disk completed =>
      have heq : Kernel.isrStep io = { io with
          isr := .test
          disk := { io.disk with usedIdx := io.disk.usedIdx + 1#16 } } := by
        simp [Kernel.isrStep, isr]
      rw [heq]
      exact ⟨hsub.congr rfl hsub.status rfl,
        .done ⟨taken, inFlight, consumed, Or.inr rfl⟩ disk completed, rfl⟩
  | done quiet disk completed =>
      obtain ⟨pc, heq, hpc⟩ := isrStep_of_consumed quiet.isr quiet.consumed
      rw [heq]
      exact ⟨hsub, .done ⟨quiet.taken, quiet.inFlight, quiet.consumed, hpc⟩ disk completed, rfl⟩

/-! ### Formatting a request -/

/-- The fields the driver formats leave the rings alone. -/
theorem rwFormat_rings {c : RwCall β} {idx : List Nat} {stmt : Disk β → Disk β}
    (h : stmt ∈ rwFormat c idx) (d : Disk β) :
    (stmt d).availIdx = d.availIdx ∧ (stmt d).availRing = d.availRing ∧
      (stmt d).usedRingIdx = d.usedRingIdx ∧ (stmt d).usedIdx = d.usedIdx := by
  simp only [rwFormat, List.mem_append, List.mem_map, List.mem_cons, List.not_mem_nil,
    or_false] at h
  rcases h with (((((rfl | rfl | rfl) | ⟨f, -, rfl⟩) | ⟨f, -, rfl⟩) | rfl) | ⟨f, -, rfl⟩) |
    rfl | rfl <;> exact ⟨rfl, rfl, rfl, rfl⟩

/-- The descriptor fields of a call's request. -/
def rwReq (c : RwCall β) (head : Nat) : ChainReq (Ptr β) :=
  ⟨c.write, .signed (.ops head), 16#32, .unsigned (.data c.b), 512#32,
    .unsigned (.status head), 1#32⟩

/-- The memory after all assignments of `rwFormat`. -/
def formatted (c : RwCall β) (idx : List Nat) (d : Disk β) : Disk β :=
  (rwFormat c idx).foldl (fun d stmt => stmt d) d

omit [DecidableEq β] in
/-- Three descriptors linked as `virtio_disk_rw` links them are the chain
the device walks. -/
theorem chainWalk_link {α : Type} (req : ChainReq α) {i j k : Nat} (hnodup : [i, j, k].Nodup)
    (hlt : ∀ l ∈ [i, j, k], l < NUM) (t : DescTable α) :
    chainWalk NUM (link req [i, j, k] t) NUM i = some [i, j, k] := by
  have hne : i ≠ j ∧ i ≠ k ∧ j ≠ k := by simpa [and_assoc] using hnodup
  obtain ⟨hij, hik, hjk⟩ := hne
  have hi := hlt i (by simp)
  have hj := hlt j (by simp)
  have hk := hlt k (by simp)
  have hlinked := linked_link req hnodup (by unfold NUM at hj; omega) (by unfold NUM at hk; omega) t
  obtain ⟨hni, hnext, hnj, hnext', hnk⟩ := hlinked
  have hlast : ((link req [i, j, k] t).desc k).flags &&& vringDescFNext = 0#16 := hnk
  show chainWalk NUM (link req [i, j, k] t) (5 + 1 + 1 + 1) i = _
  rw [chainWalk, if_neg (Nat.not_le.mpr hi), if_pos hni, hnext,
    chainWalk, if_neg (Nat.not_le.mpr hj), if_pos hnj, hnext',
    chainWalk, if_neg (Nat.not_le.mpr hk), if_neg (not_not.mpr hlast)]
  rfl

/-- The header, the data descriptor and the status descriptor that the driver
formats. -/
theorem formatted_fields (c : RwCall β) {i j k : Nat} (hnodup : [i, j, k].Nodup) (d : Disk β) :
    (formatted c [i, j, k] d).ops i
      = ⟨if c.write then virtioBlkTOut else virtioBlkTIn, 0#32, c.sector⟩ ∧
    (formatted c [i, j, k] d).table.desc i
      = ⟨.signed (.ops i), 16#32, vringDescFNext, BitVec.ofNat 16 j⟩ ∧
    (formatted c [i, j, k] d).table.desc j
      = ⟨.unsigned (.data c.b), 512#32,
          (if c.write then 0#16 else vringDescFWrite) ||| vringDescFNext, BitVec.ofNat 16 k⟩ ∧
    (formatted c [i, j, k] d).table.desc k
      = ⟨.unsigned (.status i), 1#32, vringDescFWrite, 0#16⟩ := by
  -- The table is linked in one go, so each of the three gets its own descriptor.
  have hne : i ≠ j ∧ i ≠ k ∧ j ≠ k := by simpa [and_assoc] using hnodup
  obtain ⟨hij, hik, hjk⟩ := hne
  have htable : (formatted c [i, j, k] d).table = link (rwReq c i) [i, j, k] d.table := rfl
  have hdi := link_desc (rwReq c i) hnodup d.table i
  have hdj := link_desc (rwReq c i) hnodup d.table j
  have hdk := link_desc (rwReq c i) hnodup d.table k
  rw [if_pos rfl] at hdi
  rw [if_neg hij.symm, if_pos rfl] at hdj
  rw [if_neg hik.symm, if_neg hjk.symm, if_pos rfl] at hdk
  refine ⟨?_, ?_, ?_, ?_⟩
  · simp [formatted, rwFormat, onOps, onTable, linkHeader, linkData, linkStatus]
  · rw [htable]
    exact hdi
  · rw [htable]
    exact hdj
  · rw [htable]
    exact hdk

/-- A device that finds `disk.ops[i]` at the address of the header reads back
what the driver formatted, and any other finds no request. -/
theorem decodeReq_formatted (c : RwCall β) {i j k : Nat} (hnodup : [i, j, k].Nodup)
    (hlt : ∀ l ∈ [i, j, k], l < NUM) (d : Disk β) (header : Ptr β → Option Nat) :
    decodeReq header (formatted c [i, j, k] d) i =
      (header (.signed (.ops i))).map fun l =>
        ⟨(formatted c [i, j, k] d).ops l,
          ⟨.unsigned (.data c.b), 512#32,
            (if c.write then 0#16 else vringDescFWrite) ||| vringDescFNext, BitVec.ofNat 16 k⟩,
          ⟨.unsigned (.status i), 1#32, vringDescFWrite, 0#16⟩⟩ := by
  obtain ⟨-, hdi, hdj, hdk⟩ := formatted_fields c hnodup d
  have hwalk : chainWalk NUM (formatted c [i, j, k] d).table NUM i = some [i, j, k] :=
    chainWalk_link (rwReq c i) hnodup hlt d.table
  unfold decodeReq
  rw [hwalk]
  simp only [hdi, hdj, hdk]
  -- The device accepts the lengths and the direction of the status byte.
  have hwrite : vringDescFWrite &&& vringDescFWrite ≠ 0#16 := by decide
  cases header (.signed (.ops i)) with
  | none => rfl
  | some l => exact if_pos ⟨trivial, trivial, hwrite⟩

/-- Descriptors `0`, `1` and `2` hold the request after the formatting. -/
theorem submitted_formatted (c : RwCall β) {d : Disk β} (huse : InUse d 0 3) (hinfo : NoInfo d) :
    Submitted c (formatted c [0, 1, 2] d) ∧ (formatted c [0, 1, 2] d).blkDisk c.b = 1#32 := by
  have hnodup : [0, 1, 2].Nodup := by decide
  -- The walk from the head visits the three descriptors and ends.
  have hwalk : chainWalk NUM (formatted c [0, 1, 2] d).table NUM 0 = some [0, 1, 2] :=
    chainWalk_link (rwReq c 0) hnodup (by decide) d.table
  have hlast : statusDesc (formatted c [0, 1, 2] d) 0
      = some ((formatted c [0, 1, 2] d).table.desc 2) := by
    unfold statusDesc
    rw [hwalk]
    rfl
  obtain ⟨-, -, -, hstatus⟩ := formatted_fields c hnodup d
  refine ⟨⟨huse, ?_, ⟨_, hlast, by rw [hstatus]⟩, ?_, ?_, ?_⟩, ?_⟩
  · -- Each descriptor in turn: two have a successor, the status has none.
    intro i _ hi
    have hlinked := linked_link (rwReq c 0) hnodup (by decide) (by decide) d.table
    obtain ⟨hn0, hnext0, hn1, hnext1, hlast⟩ := hlinked
    match i, hi with
    | 0, _ => exact ⟨iff_of_true hn0 (by decide), fun _ => hnext0⟩
    | 1, _ => exact ⟨iff_of_true hn1 (by decide), fun _ => hnext1⟩
    | 2, _ => exact ⟨iff_of_false (not_not.mpr hlast) (by decide), fun h => absurd h (by decide)⟩
  · simp [formatted, rwFormat, onOps, onTable, linkHeader, linkData, linkStatus]
  · simp [formatted, rwFormat, onOps, onTable, linkHeader, linkData, linkStatus]
  · intro i hi
    simp [formatted, rwFormat, onOps, onTable, linkHeader, linkData, linkStatus, hi, hinfo i]
  · simp [formatted, rwFormat, onOps, onTable, linkHeader, linkData, linkStatus]

/-! ### The state of the driver at its program points -/

/-- What a program point past `lock_acquire` means. -/
def Phase (c : RwCall β) (io : DiskIo β) : RwPc → Prop
  | .acquire | .rollback _ | .panicked _ => False
  | .allocTest idx i =>
      (idx = List.range idx.length ∧ idx.length < 3 ∧ i ≤ idx.length) ∧
      Quiet io ∧ InUse io.disk 0 idx.length ∧ NoInfo io.disk ∧ io.completed c.id = 0
  | .allocTake idx i =>
      (idx = List.range idx.length ∧ idx.length < 3 ∧ i = idx.length) ∧
      Quiet io ∧ InUse io.disk 0 idx.length ∧ NoInfo io.disk ∧ io.completed c.id = 0
  | .format idx k =>
      idx = [0, 1, 2] ∧ Quiet io ∧ io.completed c.id = 0 ∧
      ∃ d, InUse d 0 3 ∧ NoInfo d ∧
        io.disk = ((rwFormat c idx).take k).foldl (fun d stmt => stmt d) d
  | .ring idx =>
      idx = [0, 1, 2] ∧ Quiet io ∧ Submitted c io.disk ∧ io.disk.blkDisk c.b = 1#32 ∧
      io.completed c.id = 0
  | .bump idx =>
      idx = [0, 1, 2] ∧ Quiet io ∧ Submitted c io.disk ∧ io.disk.blkDisk c.b = 1#32 ∧
      io.completed c.id = 0 ∧
      (io.disk.availRing (io.disk.availIdx.toNat % NUM)).toNat = 0 ∧
      io.slotCall (io.disk.availIdx.toNat % NUM) = c.id
  | .notify idx | .wait idx => idx = [0, 1, 2] ∧ Submitted c io.disk ∧ Served c io
  | .clearB idx => idx = [0, 1, 2] ∧ Quiet io ∧ Submitted c io.disk ∧ io.completed c.id = 1
  | .chainFlags i =>
      i < 3 ∧ Quiet io ∧ InUse io.disk i 3 ∧ NoInfo io.disk ∧ Links io.disk i ∧
      io.completed c.id = 1
  | .chainNext i flag =>
      i < 3 ∧ Quiet io ∧ InUse io.disk i 3 ∧ NoInfo io.disk ∧ Links io.disk i ∧
      io.completed c.id = 1 ∧ (flag &&& vringDescFNext ≠ 0#16 ↔ i < 2)
  | .freeTest i flag nxt =>
      i < 3 ∧ Quiet io ∧ InUse io.disk i 3 ∧ NoInfo io.disk ∧ Links io.disk i ∧
      io.completed c.id = 1 ∧ (flag &&& vringDescFNext ≠ 0#16 ↔ i < 2) ∧
      (i < 2 → nxt.toNat = i + 1)
  | .freeStmt i flag nxt k =>
      i < 3 ∧ Quiet io ∧ InUse io.disk (if k < 5 then i else i + 1) 3 ∧ NoInfo io.disk ∧
      Links io.disk (i + 1) ∧ io.completed c.id = 1 ∧
      (flag &&& vringDescFNext ≠ 0#16 ↔ i < 2) ∧ (i < 2 → nxt.toNat = i + 1)
  | .unlock => Quiet io ∧ InUse io.disk 3 3 ∧ NoInfo io.disk ∧ io.completed c.id = 1

/-- A move of the device keeps the phase, and counts completions for no
other call. -/
theorem Phase.devStep {c : RwCall β} {io io' : DiskIo β} {pc : RwPc} (h : Phase c io pc)
    {m : DevMove} (hstep : DevStep io m io') :
    Phase c io' pc ∧ ∀ id, id ≠ c.id → io'.completed id = io.completed id := by
  cases pc with
  | acquire | rollback idx | panicked msg => exact h.elim
  | notify idx | wait idx =>
      obtain ⟨hidx, hsub, hserved⟩ := h
      obtain ⟨hsub', hserved', hother⟩ := hserved.devStep hsub hstep
      exact ⟨⟨hidx, hsub', hserved'⟩, hother⟩
  | unlock => exact absurd hstep (h.1.not_devStep m)
  | _ => exact absurd hstep (h.2.1.not_devStep m)

/-- A step of the handler while nothing is under way. -/
theorem Quiet.isrStep {io : DiskIo β} (h : Quiet io) :
    ∃ pc, Kernel.isrStep io = { io with isr := pc } ∧ Quiet { io with isr := pc } := by
  obtain ⟨pc, heq, hpc⟩ := isrStep_of_consumed h.isr h.consumed
  exact ⟨pc, heq, h.taken, h.inFlight, h.consumed, hpc⟩

/-- A step of the handler keeps the phase. -/
theorem Phase.isrStep {c : RwCall β} {io : DiskIo β} {pc : RwPc} (h : Phase c io pc) :
    Phase c (isrStep io) pc ∧ (Kernel.isrStep io).completed = io.completed := by
  cases pc with
  | acquire | rollback idx | panicked msg => exact h.elim
  | notify idx | wait idx =>
      obtain ⟨hidx, hsub, hserved⟩ := h
      obtain ⟨hsub', hserved', hsame⟩ := hserved.isrStep hsub
      exact ⟨⟨hidx, hsub', hserved'⟩, hsame⟩
  | unlock =>
      obtain ⟨hquiet, hrest⟩ := h
      obtain ⟨pc, heq, hquiet'⟩ := hquiet.isrStep
      rw [heq]
      exact ⟨⟨hquiet', hrest⟩, rfl⟩
  | _ =>
      obtain ⟨hfst, hquiet, hrest⟩ := h
      obtain ⟨pc, heq, hquiet'⟩ := hquiet.isrStep
      rw [heq]
      exact ⟨⟨hfst, hquiet', hrest⟩, rfl⟩

/-- The driver counts no completion and does not touch the handler. -/
theorem rwStep_completed (c : RwCall β) (io : DiskIo β) (pc : RwPc) :
    (rwStep c io pc).1.completed = io.completed ∧ (rwStep c io pc).1.isr = io.isr := by
  unfold rwStep
  split
  all_goals first
    | exact ⟨rfl, rfl⟩
    | (split <;> first | exact ⟨rfl, rfl⟩ | (split <;> exact ⟨rfl, rfl⟩))

omit [DecidableEq β] in
/-- `free[i] = 0` for the lowest free descriptor. -/
theorem InUse.take {d : Disk β} {n : Nat} (h : InUse d 0 n) :
    InUse (onTable (DescTable.setFree n false) d) 0 (n + 1) := by
  intro j hj
  have hold := h j hj
  show Function.update d.table.free n false j = true ↔ _
  by_cases hjn : j = n
  · subst hjn
    simp
  · rw [Function.update_of_ne hjn, hold]
    omega

omit [DecidableEq β] in
/-- `free[i] = 1` for the lowest descriptor in use. -/
theorem InUse.release {d : Disk β} {i : Nat} (h : InUse d i 3) (hi : i < 3) :
    InUse (onTable (DescTable.setFree i true) d) (i + 1) 3 := by
  intro j hj
  have hold := h j hj
  show Function.update d.table.free i true j = true ↔ _
  by_cases hji : j = i
  · subst hji
    simp
  · rw [Function.update_of_ne hji, hold]
    omega

omit [DecidableEq β] in
/-- The assignments of `free_desc`: four that zero the entry and keep the
rest of the table, and the one to `free[i]`. -/
theorem freeDescStmts_cases {i k : Nat} {stmt : DescTable (Ptr β) → DescTable (Ptr β)}
    (h : (freeDescStmts i)[k]? = some stmt) :
    (k < 4 ∧ ∀ t, (stmt t).free = t.free ∧ ∀ j, j ≠ i → (stmt t).desc j = t.desc j) ∨
    (k = 4 ∧ stmt = .setFree i true) := by
  match k, h with
  | 0, h | 1, h | 2, h | 3, h =>
      obtain rfl := Option.some.inj h
      exact Or.inl ⟨by decide, fun t => ⟨rfl, fun j hj => Function.update_of_ne hj ..⟩⟩
  | 4, h => exact Or.inr ⟨rfl, (Option.some.inj h).symm⟩
  | k + 5, h => simp [freeDescStmts] at h

/-- `alloc_desc` looks at `free[i]`. -/
theorem Phase.allocTest {c : RwCall β} {io : DiskIo β} {idx : List Nat} {i : Nat}
    (h : Phase c io (.allocTest idx i)) :
    Phase c (rwStep c io (.allocTest idx i)).1 (rwStep c io (.allocTest idx i)).2 := by
  obtain ⟨⟨hidx, hlen, hi⟩, hquiet, huse, hinfo, hcomp⟩ := h
  have hnum : i < NUM := by unfold NUM; omega
  have hfree := huse i hnum
  -- The descriptors before `idx.length` are taken, so `free[i]` is set
  -- exactly where the scan has come that far.
  rw [rwStep, if_neg (Nat.ne_of_lt hnum)]
  split
  · rename_i htrue
    exact ⟨⟨hidx, hlen, by have := hfree.mp htrue; omega⟩, hquiet, huse, hinfo, hcomp⟩
  · rename_i hfalse
    exact ⟨⟨hidx, hlen, by by_contra; exact hfalse (hfree.mpr (by omega))⟩, hquiet, huse,
      hinfo, hcomp⟩

/-- `free[i] = 0`, and on to the next descriptor or to the request. -/
theorem Phase.allocTake {c : RwCall β} {io : DiskIo β} {idx : List Nat} {i : Nat}
    (h : Phase c io (.allocTake idx i)) :
    Phase c (rwStep c io (.allocTake idx i)).1 (rwStep c io (.allocTake idx i)).2 := by
  obtain ⟨⟨hidx, hlen, rfl⟩, hquiet, huse, hinfo, hcomp⟩ := h
  have hquiet' : Quiet (io.onDisk (onTable (DescTable.setFree idx.length false))) :=
    ⟨hquiet.taken, hquiet.inFlight, hquiet.consumed, hquiet.isr⟩
  -- The scan always takes the lowest free descriptor.
  have hnext : idx ++ [idx.length] = List.range (idx.length + 1) := by
    rw [List.range_succ, ← hidx]
  have hlen' : (idx ++ [idx.length]).length = idx.length + 1 := by simp
  rw [rwStep]
  show Phase c _ (if (idx ++ [idx.length]).length = 3 then _ else _)
  split
  · rename_i hthree
    rw [hlen'] at hthree
    have huse' := huse.take
    rw [hthree] at huse'
    exact ⟨by rw [hnext, hthree]; rfl, hquiet', hcomp, _, huse', hinfo, by simp [DiskIo.onDisk]⟩
  · rename_i hne
    refine ⟨⟨by rw [hlen', hnext], by omega, by omega⟩, hquiet', ?_, hinfo, hcomp⟩
    rw [hlen']
    exact huse.take

/-- An assignment of the request, or the end of them. -/
theorem Phase.format {c : RwCall β} {io : DiskIo β} {idx : List Nat} {k : Nat}
    (h : Phase c io (.format idx k)) :
    Phase c (rwStep c io (.format idx k)).1 (rwStep c io (.format idx k)).2 := by
  obtain ⟨rfl, hquiet, hcomp, d, huse, hinfo, hdisk⟩ := h
  rw [rwStep]
  cases hk : (rwFormat c [0, 1, 2])[k]? with
  | some stmt =>
      obtain ⟨havail, -, hused, hidx⟩ := rwFormat_rings (List.mem_of_getElem? hk) io.disk
      refine ⟨rfl, ⟨?_, hquiet.inFlight, ?_, hquiet.isr⟩, hcomp, d, huse, hinfo, ?_⟩
      · show io.lastAvail = (stmt io.disk).availIdx
        rw [havail]
        exact hquiet.taken
      · show (stmt io.disk).usedIdx = (stmt io.disk).usedRingIdx
        rw [hused, hidx]
        exact hquiet.consumed
      · show stmt io.disk = _
        rw [List.take_add_one, hk, List.foldl_append, ← hdisk]
        rfl
  -- All statements are done: the request is there to read.
  | none =>
      have hall : (rwFormat c [0, 1, 2]).take k = rwFormat c [0, 1, 2] :=
        List.take_of_length_le (List.getElem?_eq_none_iff.mp hk)
      rw [hall] at hdisk
      obtain ⟨hsub, hb⟩ := submitted_formatted c huse hinfo
      rw [formatted, ← hdisk] at hsub hb
      exact ⟨rfl, hquiet, hsub, hb, hcomp⟩

/-- The test of `b->disk`. -/
theorem Phase.wait {c : RwCall β} {io : DiskIo β} {idx : List Nat}
    (h : Phase c io (.wait idx)) (hisr : io.isr = .idle) :
    Phase c (rwStep c io (.wait idx)).1 (rwStep c io (.wait idx)).2 := by
  obtain ⟨rfl, hsub, hserved⟩ := h
  show Phase c io (if io.disk.blkDisk c.b = 1#32 then _ else _)
  split
  · exact ⟨rfl, hsub, hserved⟩
  · rename_i hne
    -- The wait ends with `b->disk` cleared and the handler idle, and only a
    -- request that is done has both.
    cases hserved with
    | published _ _ _ _ _ _ disk _ => exact absurd disk hne
    | inDevice _ _ _ _ _ _ disk _ => exact absurd disk hne
    | used _ _ _ _ _ disk _ => exact absurd disk hne
    | cleared _ _ _ isr _ _ => simp [hisr] at isr
    | done quiet _ completed => exact ⟨rfl, quiet, hsub, completed⟩

/-- An assignment of `free_desc`, or `free_chain` goes on along the link. -/
theorem Phase.freeStmt {c : RwCall β} {io : DiskIo β} {i : Nat} {flag nxt : BitVec 16} {k : Nat}
    (h : Phase c io (.freeStmt i flag nxt k)) :
    Phase c (rwStep c io (.freeStmt i flag nxt k)).1
      (rwStep c io (.freeStmt i flag nxt k)).2 := by
  obtain ⟨hi, hquiet, huse, hinfo, hlinks, hcomp, hflag, hnxt⟩ := h
  have hquiet' : ∀ stmt, Quiet (io.onDisk (onTable stmt)) := fun _ =>
    ⟨hquiet.taken, hquiet.inFlight, hquiet.consumed, hquiet.isr⟩
  rw [rwStep]
  cases hk : (freeDescStmts (α := Ptr β) i)[k]? with
  | some stmt =>
      rcases freeDescStmts_cases hk with ⟨hlt, hframe⟩ | ⟨rfl, rfl⟩
      -- A store to the entry. The links after `i` stay.
      · obtain ⟨hfree, hdesc⟩ := hframe io.disk.table
        refine ⟨hi, hquiet' stmt, ?_, hinfo, fun j hle hlt' => ?_, hcomp, hflag, hnxt⟩
        · show InUse (onTable stmt io.disk) (if k + 1 < 5 then i else i + 1) 3
          have hkeep : k + 1 < 5 := by omega
          rw [if_pos (by omega)] at huse
          rw [if_pos hkeep]
          intro j hj
          show (stmt io.disk.table).free j = true ↔ _
          rw [hfree]
          exact huse j hj
        · show (((stmt io.disk.table).desc j).flags &&& _ ≠ _ ↔ _) ∧
            (_ → ((stmt io.disk.table).desc j).next.toNat = _)
          rw [hdesc j (by omega)]
          exact hlinks j hle hlt'
      · exact ⟨hi, hquiet' _, huse.release hi, hinfo, hlinks, hcomp, hflag, hnxt⟩
  | none =>
      have hlen : 5 ≤ k := List.getElem?_eq_none_iff.mp hk
      rw [if_neg (by omega)] at huse
      show Phase c io (if flag &&& vringDescFNext ≠ 0#16 then _ else _)
      -- The flag and the link were read before the entry was zeroed.
      split
      · rename_i hset
        have hlt := hflag.mp hset
        rw [hnxt hlt]
        exact ⟨by omega, hquiet, huse, hinfo, hlinks, hcomp⟩
      · rename_i hclear
        have hthree : i + 1 = 3 := by
          by_contra hne
          exact hclear (hflag.mpr (by omega))
        rw [hthree] at huse
        exact ⟨hquiet, huse, hinfo, hcomp⟩

/-- The statements of the driver, one case for each program point between
`lock_acquire` and `lock_free`. -/
theorem Phase.rwStep {c : RwCall β} {io : DiskIo β} {pc : RwPc} (h : Phase c io pc)
    (hpc : pc ≠ .unlock) (hisr : io.isr = .idle) :
    Phase c (rwStep c io pc).1 (Kernel.rwStep c io pc).2 := by
  cases pc with
  | acquire | rollback idx | panicked msg => exact h.elim
  | unlock => exact absurd rfl hpc
  | allocTest idx i => exact h.allocTest
  | allocTake idx i => exact h.allocTake
  | format idx k => exact h.format
  | ring idx =>
      obtain ⟨rfl, hquiet, hsub, hb, hcomp⟩ := h
      refine ⟨rfl, ⟨hquiet.taken, hquiet.inFlight, hquiet.consumed, hquiet.isr⟩,
        hsub.congr rfl hsub.status rfl, hb, hcomp, ?_, ?_⟩
      · simp [Kernel.rwStep, DiskIo.onDisk, availPut]
      · simp [Kernel.rwStep, DiskIo.onDisk, availPut]
  | bump idx =>
      obtain ⟨rfl, hquiet, hsub, hb, hcomp, hhead, hslot⟩ := h
      refine ⟨rfl, hsub.congr rfl hsub.status rfl,
        .published ?_ hquiet.inFlight hquiet.consumed hquiet.isr ?_ ?_ hb hcomp⟩
      · exact congrArg (· + 1#16) hquiet.taken
      · show (io.disk.availRing (io.lastAvail.toNat % NUM)).toNat = 0
        rw [hquiet.taken]
        exact hhead
      · show io.slotCall (io.lastAvail.toNat % NUM) = c.id
        rw [hquiet.taken]
        exact hslot
  | notify idx => exact h
  | wait idx => exact h.wait hisr
  | clearB idx =>
      obtain ⟨rfl, hquiet, hsub, hcomp⟩ := h
      refine ⟨by decide, ⟨hquiet.taken, hquiet.inFlight, hquiet.consumed, hquiet.isr⟩,
        hsub.inUse, fun i => ?_, hsub.links, hcomp⟩
      show Function.update io.disk.infoB 0 none i = none
      by_cases hi : i = 0
      · rw [hi, Function.update_self]
      · rw [Function.update_of_ne hi, hsub.noInfo i hi]
  | chainFlags i =>
      obtain ⟨hi, hquiet, huse, hinfo, hlinks, hcomp⟩ := h
      exact ⟨hi, hquiet, huse, hinfo, hlinks, hcomp, (hlinks i (Nat.le_refl i) hi).1⟩
  | chainNext i flag =>
      obtain ⟨hi, hquiet, huse, hinfo, hlinks, hcomp, hflag⟩ := h
      exact ⟨hi, hquiet, huse, hinfo, hlinks, hcomp, hflag, (hlinks i (Nat.le_refl i) hi).2⟩
  | freeTest i flag nxt =>
      obtain ⟨hi, hquiet, huse, hinfo, hlinks, hcomp, hflag, hnxt⟩ := h
      have hnum : i < NUM := by unfold NUM; omega
      -- The descriptor is still in use, so `free_desc` does not panic.
      have hfree : ¬ io.disk.table.free i = true := by
        rw [huse i hnum]
        omega
      rw [Kernel.rwStep, if_neg (Nat.not_le.mpr hnum), if_neg hfree]
      exact ⟨hi, hquiet, huse, hinfo, fun j hle => hlinks j (by omega), hcomp, hflag, hnxt⟩
  | freeStmt i flag nxt k => exact h.freeStmt

/-! ### All tasks together -/

/-- The task is past `lock_acquire` in its call. -/
def Driving : RwTask β → Prop
  | .outside => False
  | .running _ pc => pc ≠ .acquire

/-- The driver at rest: nothing under way, and the pool and `info[]` are
empty. -/
def Rest (io : DiskIo β) : Prop := Quiet io ∧ InUse io.disk 0 0 ∧ NoInfo io.disk

variable {ι : Type}

omit [DecidableEq β] in
/-- Behind `acquire` a task drives the disk. -/
theorem driving_of_running {task : ι → RwTask β} {t : ι} {c : RwCall β} {pc : RwPc}
    (ht : task t = .running c pc) (hpc : pc ≠ .acquire) : Driving (task t) := by
  rw [ht]
  exact hpc

section Drivers

variable [DecidableEq ι] {task : ι → RwTask β} {t : ι}

omit [DecidableEq β] in
/-- A task that makes its call does not drive yet. -/
theorem driving_call (ht : task t = .outside) (c : RwCall β) (u : ι) :
    Driving (Function.update task t (.running c .acquire) u) ↔ Driving (task u) := by
  by_cases hut : u = t
  · rw [hut, Function.update_self, ht]
    exact iff_of_false (fun h => h rfl) id
  · rw [Function.update_of_ne hut]

omit [DecidableEq β] in
/-- Where one task alone drives, it alone drives after its step. -/
theorem eq_of_driving_update (hsole : ∀ u, Driving (task u) → u = t) {τ : RwTask β} {u : ι}
    (hu : Driving (Function.update task t τ u)) : u = t := by
  by_contra hne
  rw [Function.update_of_ne hne] at hu
  exact hne (hsole u hu)

omit [DecidableEq β] in
/-- When it leaves, no task drives. -/
theorem not_driving_leave (hsole : ∀ u, Driving (task u) → u = t) (u : ι) :
    ¬ Driving (Function.update task t .outside u) := by
  intro hu
  rw [eq_of_driving_update hsole hu, Function.update_self] at hu
  exact hu

end Drivers

/-- What holds of one task: its call has a number of its own, it has no
completion while it waits for the lock, and past the lock its phase holds. -/
def TaskOk (s : VirtioState ι β) : RwTask β → Prop
  | .outside => True
  | .running c pc =>
      c.id < s.nextCall ∧ c.id ∉ s.returned ∧
      (pc = .acquire → s.io.completed c.id = 0) ∧
      (pc ≠ .acquire → Phase c s.io pc ∧ s.vdiskLock = 1#32)

/-- The invariant of the driver. -/
structure DriverInv (s : VirtioState ι β) : Prop where
  tasks : ∀ t, TaskOk s (s.task t)
  unique : ∀ t u, Driving (s.task t) → Driving (s.task u) → t = u
  distinct : ∀ t u c pc d qc, s.task t = .running c pc → s.task u = .running d qc →
    c.id = d.id → t = u
  rest : (∀ t, ¬ Driving (s.task t)) → Rest s.io
  fresh : ∀ id, s.nextCall ≤ id → s.io.completed id = 0
  returned : ∀ id ∈ s.returned, id < s.nextCall ∧ s.io.completed id = 1

/-- The invariant holds after `virtio_disk_init`. -/
theorem driverInv_init {s : VirtioState ι β} (h : VirtioInit s) : DriverInv s := by
  obtain ⟨hfree, hinfo, havail, hused, hidx, htaken, hflight, hisr, hcomp, -, htask, -, hret⟩ := h
  have hnone : ∀ t, ¬ Driving (s.task t) := by
    intro t
    rw [htask t]
    exact fun h => h
  refine ⟨fun t => by rw [htask t]; trivial, fun t _ ht => (hnone t ht).elim, ?_, fun _ => ?_,
    fun id _ => hcomp id, by simp [hret]⟩
  · intro t u c pc d qc ht
    simp [htask t] at ht
  · refine ⟨⟨by rw [htaken, havail], hflight, by rw [hused, hidx], Or.inl hisr⟩, ?_, hinfo⟩
    intro i hi
    simp [hfree i hi]

namespace DriverInv

variable [DecidableEq ι] {s : VirtioState ι β}

/-- One task drives, or starts to, and it alone: the shared state may change
with its phase. The other tasks are outside or wait for the lock. -/
theorem drive (hinv : DriverInv s) {t : ι} {c : RwCall β} {pc pc' : RwPc} {io : DiskIo β}
    (ht : s.task t = .running c pc) (hsole : ∀ u, Driving (s.task u) → u = t)
    (hphase : Phase c io pc')
    (hother : ∀ id, id ≠ c.id → io.completed id = s.io.completed id) :
    DriverInv { s with
      io := io
      vdiskLock := 1#32
      task := Function.update s.task t (.running c pc') } := by
  have hpc' : pc' ≠ .acquire := by
    rintro rfl
    exact hphase
  have hok := hinv.tasks t
  rw [ht] at hok
  obtain ⟨hlt, hnot, -, -⟩ := hok
  have hrest : ∀ u, u ≠ t → Function.update s.task t (.running c pc') u = s.task u :=
    fun u hu => Function.update_of_ne hu ..
  have honly : ∀ u, Driving (Function.update s.task t (.running c pc') u) → u = t :=
    fun u => eq_of_driving_update hsole
  refine ⟨fun u => ?_, fun u v hu hv => (honly u hu).trans (honly v hv).symm, ?_, ?_, ?_, ?_⟩
  · show TaskOk _ (Function.update s.task t (.running c pc') u)
    by_cases hut : u = t
    · subst hut
      rw [Function.update_self]
      exact ⟨hlt, hnot, fun h => absurd h hpc', fun _ => ⟨hphase, rfl⟩⟩
    · rw [hrest u hut]
      have hu := hinv.tasks u
      cases hτ : s.task u with
      | outside => trivial
      | running d qc =>
          rw [hτ] at hu
          obtain ⟨hlt', hnot', hwait, -⟩ := hu
          refine ⟨hlt', hnot', fun hqc => ?_, fun hqc => ?_⟩
          -- Another task waits. Its call has another number.
          · have hne : d.id ≠ c.id := fun h => hut (hinv.distinct u t d qc c pc hτ ht h)
            exact (hother d.id hne).trans (hwait hqc)
          · exact absurd (hsole u (driving_of_running hτ hqc)) hut
  · -- Call numbers stay with their tasks.
    have hcall : ∀ u d qc, Function.update s.task t (.running c pc') u = .running d qc →
        ∃ qc', s.task u = .running d qc' := by
      intro u d qc hu
      by_cases hut : u = t
      · subst hut
        rw [Function.update_self] at hu
        obtain ⟨rfl, -⟩ := RwTask.running.inj hu
        exact ⟨pc, ht⟩
      · rw [hrest u hut] at hu
        exact ⟨qc, hu⟩
    intro u v d qc e rc hu hv hid
    obtain ⟨qc', hu'⟩ := hcall u d qc hu
    obtain ⟨rc', hv'⟩ := hcall v e rc hv
    exact hinv.distinct u v d qc' e rc' hu' hv' hid
  · exact fun hnone => absurd (driving_of_running (Function.update_self ..) hpc') (hnone t)
  · intro id hid
    have hne : id ≠ c.id := by
      have : s.nextCall ≤ id := hid
      omega
    exact (hother id hne).trans (hinv.fresh id hid)
  · intro id hid
    obtain ⟨hlt', hone⟩ := hinv.returned id hid
    have hne : id ≠ c.id := fun h => hnot (h ▸ hid)
    exact ⟨hlt', (hother id hne).trans hone⟩

/-- The driving task, the device or the handler changes the shared state. -/
theorem move (hinv : DriverInv s) {t : ι} {c : RwCall β} {pc pc' : RwPc} {io : DiskIo β}
    (ht : s.task t = .running c pc) (hpc : pc ≠ .acquire) (hphase : Phase c io pc')
    (hother : ∀ id, id ≠ c.id → io.completed id = s.io.completed id) :
    DriverInv { s with io := io, task := Function.update s.task t (.running c pc') } := by
  have hdriving := driving_of_running ht hpc
  have hok := hinv.tasks t
  rw [ht] at hok
  have hmove := hinv.drive ht (fun u hu => hinv.unique u t hu hdriving) hphase hother
  rwa [← (hok.2.2.2 hpc).2] at hmove

omit [DecidableEq ι] in
/-- The driving task, if there is one, with its phase. -/
theorem driving_cases (hinv : DriverInv s) :
    (∀ t, ¬ Driving (s.task t)) ∨
    ∃ t c pc, s.task t = .running c pc ∧ pc ≠ .acquire ∧ Phase c s.io pc := by
  by_cases h : ∃ t, Driving (s.task t)
  · obtain ⟨t, ht⟩ := h
    have hok := hinv.tasks t
    cases hτ : s.task t with
    | outside =>
        rw [hτ] at ht
        exact ht.elim
    | running c pc =>
        rw [hτ] at ht hok
        exact Or.inr ⟨t, c, pc, hτ, ht, (hok.2.2.2 ht).1⟩
  · exact Or.inl fun t ht => h ⟨t, ht⟩

/-- A step of the device. -/
theorem device (hinv : DriverInv s) {m : DevMove} {io : DiskIo β} (hstep : DevStep s.io m io) :
    DriverInv { s with io := io } := by
  rcases hinv.driving_cases with hnone | ⟨t, c, pc, ht, hpc, hphase⟩
  · exact absurd hstep ((hinv.rest hnone).1.not_devStep m)
  · obtain ⟨hphase', hother⟩ := hphase.devStep hstep
    have hmove := hinv.move ht hpc hphase' hother
    rwa [← ht, Function.update_eq_self] at hmove

/-- A step of the handler. -/
theorem isr (hinv : DriverInv s) : DriverInv { s with io := isrStep s.io } := by
  rcases hinv.driving_cases with hnone | ⟨t, c, pc, ht, hpc, hphase⟩
  · obtain ⟨hquiet, huse, hinfo⟩ := hinv.rest hnone
    obtain ⟨pc, heq, hquiet'⟩ := hquiet.isrStep
    rw [heq]
    refine ⟨fun t => ?_, hinv.unique, hinv.distinct, fun _ => ⟨hquiet', huse, hinfo⟩, hinv.fresh,
      hinv.returned⟩
    have hok := hinv.tasks t
    have ht := hnone t
    show TaskOk _ (s.task t)
    cases hτ : s.task t with
    | outside => trivial
    | running c qc =>
        rw [hτ] at hok ht
        exact ⟨hok.1, hok.2.1, hok.2.2.1, fun hqc => absurd hqc ht⟩
  · obtain ⟨hphase', hsame⟩ := hphase.isrStep
    have hmove := hinv.move ht hpc hphase' fun id _ => congrFun hsame id
    rwa [← ht, Function.update_eq_self] at hmove

/-- A task calls `virtio_disk_rw`. Its call has a new number. -/
theorem call (hinv : DriverInv s) {t : ι} (ht : s.task t = .outside) (c : RwCall β)
    (hid : c.id = s.nextCall) :
    DriverInv { s with
      task := Function.update s.task t (.running c .acquire)
      nextCall := s.nextCall + 1 } := by
  -- The caller does not drive the disk yet, so for those who do nothing changes.
  have hback := driving_call ht c
  have hid_lt : ∀ {u d qc}, s.task u = .running d qc → d.id < s.nextCall := by
    intro u d qc hu
    have hok := hinv.tasks u
    rw [hu] at hok
    exact hok.1
  refine ⟨fun u => ?_, fun u v hu hv => hinv.unique u v ((hback u).mp hu) ((hback v).mp hv), ?_,
    fun hnone => hinv.rest fun u hu => hnone u ((hback u).mpr hu), ?_, ?_⟩
  · show TaskOk _ (Function.update s.task t (.running c .acquire) u)
    by_cases hut : u = t
    · subst hut
      rw [Function.update_self]
      refine ⟨?_, fun hmem => ?_, fun _ => ?_, fun h => absurd rfl h⟩
      · show c.id < s.nextCall + 1
        omega
      · have := (hinv.returned c.id hmem).1
        omega
      · exact hinv.fresh c.id (by omega)
    · rw [Function.update_of_ne hut]
      have hok := hinv.tasks u
      cases hτ : s.task u with
      | outside => trivial
      | running d qc =>
          rw [hτ] at hok
          exact ⟨Nat.lt_succ_of_lt hok.1, hok.2⟩
  · intro u v d qc e rc hu hv hde
    change Function.update s.task t (.running c .acquire) u = _ at hu
    change Function.update s.task t (.running c .acquire) v = _ at hv
    by_cases hut : u = t
    · by_cases hvt : v = t
      · rw [hut, hvt]
      · rw [hut, Function.update_self] at hu
        rw [Function.update_of_ne hvt] at hv
        obtain ⟨rfl, -⟩ := RwTask.running.inj hu
        -- The number of the new call is above all earlier ones.
        have := hid_lt hv
        omega
    · rw [Function.update_of_ne hut] at hu
      by_cases hvt : v = t
      · rw [hvt, Function.update_self] at hv
        obtain ⟨rfl, -⟩ := RwTask.running.inj hv
        have := hid_lt hu
        omega
      · rw [Function.update_of_ne hvt] at hv
        exact hinv.distinct u v d qc e rc hu hv hde
  · intro id hle
    have hle' : s.nextCall + 1 ≤ id := hle
    exact hinv.fresh id (by omega)
  · intro id hmem
    obtain ⟨hlt, hone⟩ := hinv.returned id hmem
    exact ⟨Nat.lt_succ_of_lt hlt, hone⟩

omit [DecidableEq ι] in
/-- The `amoswap` of `lock_acquire` finds the lock taken. -/
theorem acquire_fail (hinv : DriverInv s) : DriverInv { s with vdiskLock := 1#32 } := by
  refine ⟨fun t => ?_, hinv.unique, hinv.distinct, hinv.rest, hinv.fresh, hinv.returned⟩
  have hok := hinv.tasks t
  show TaskOk _ (s.task t)
  cases hτ : s.task t with
  | outside => trivial
  | running c pc =>
      rw [hτ] at hok
      exact ⟨hok.1, hok.2.1, hok.2.2.1, fun hpc => ⟨(hok.2.2.2 hpc).1, rfl⟩⟩

omit [DecidableEq ι] in
/-- A driving task has set the lock. -/
theorem not_driving_of_free (hinv : DriverInv s) (hfree : s.vdiskLock = 0#32) (t : ι) :
    ¬ Driving (s.task t) := by
  intro ht
  have hok := hinv.tasks t
  cases hτ : s.task t with
  | outside =>
      rw [hτ] at ht
      exact ht
  | running c pc =>
      rw [hτ] at ht hok
      have hone := (hok.2.2.2 ht).2
      rw [hfree] at hone
      exact absurd hone (by decide)

/-- The `amoswap` of `lock_acquire` finds the lock free. Nobody drives, so
the driver is at rest and the task may start. -/
theorem acquire_succeed (hinv : DriverInv s) {t : ι} {c : RwCall β}
    (ht : s.task t = .running c .acquire) (hfree : s.vdiskLock = 0#32) :
    DriverInv { s with
      vdiskLock := 1#32
      task := Function.update s.task t (.running c (.allocTest [] 0)) } := by
  have hnone := hinv.not_driving_of_free hfree
  obtain ⟨hquiet, huse, hinfo⟩ := hinv.rest hnone
  have hok := hinv.tasks t
  rw [ht] at hok
  have hzero := hok.2.2.1 rfl
  refine hinv.drive ht (fun u hu => absurd hu (hnone u)) ?_ fun _ _ => rfl
  exact ⟨⟨rfl, by decide, by decide⟩, hquiet, huse, hinfo, hzero⟩

/-- `lock_free` and the return. The driver is at rest again, and the chain
of the call has completed once. -/
theorem unlock (hinv : DriverInv s) {t : ι} {c : RwCall β}
    (ht : s.task t = .running c .unlock) :
    DriverInv { s with
      vdiskLock := 0#32
      task := Function.update s.task t .outside
      returned := c.id :: s.returned } := by
  have hdriving := driving_of_running ht (by simp)
  have hok := hinv.tasks t
  rw [ht] at hok
  obtain ⟨hlt, -, -, hphase⟩ := hok
  obtain ⟨⟨hquiet, huse, hinfo, hone⟩, -⟩ := hphase (by simp)
  -- The other calls are as before, and none of them drives.
  have hother : ∀ u, u ≠ t → Function.update s.task t .outside u = s.task u :=
    fun u hu => Function.update_of_ne hu ..
  have hnone := not_driving_leave fun u hu => hinv.unique u t hu hdriving
  have hback : ∀ u d qc, Function.update s.task t .outside u = .running d qc →
      u ≠ t ∧ s.task u = .running d qc := by
    intro u d qc hu
    by_cases hut : u = t
    · subst hut
      simp at hu
    · rw [hother u hut] at hu
      exact ⟨hut, hu⟩
  refine ⟨fun u => ?_, fun u _ hu => (hnone u hu).elim, ?_, fun _ => ⟨hquiet, ?_, hinfo⟩,
    hinv.fresh, ?_⟩
  · have hidle := hnone u
    show TaskOk _ (Function.update s.task t .outside u)
    cases hτ : Function.update s.task t .outside u with
    | outside => trivial
    | running d qc =>
        rw [hτ] at hidle
        obtain ⟨hut, hu⟩ := hback u d qc hτ
        have hoku := hinv.tasks u
        rw [hu] at hoku
        refine ⟨hoku.1, fun hmem => ?_, hoku.2.2.1, fun hqc => absurd hqc hidle⟩
        -- Another call under way is not the one that has just returned.
        rcases List.mem_cons.mp hmem with hid | hmem
        · exact hut (hinv.distinct u t d qc c .unlock hu ht hid)
        · exact hoku.2.1 hmem
  · intro u v d qc e rc hu hv hid
    exact hinv.distinct u v d qc e rc (hback u d qc hu).2 (hback v e rc hv).2 hid
  · intro i hi
    rw [huse i hi]
    omega
  · intro id hmem
    rcases List.mem_cons.mp hmem with rfl | hmem
    · exact ⟨hlt, hone⟩
    · exact hinv.returned id hmem

/-- A step of a task in its call. -/
theorem task (hinv : DriverInv s) {t : ι} {c : RwCall β} {pc : RwPc}
    (ht : s.task t = .running c pc) (hisr : s.io.isr = .idle) :
    DriverInv (taskStep s t c pc) := by
  by_cases hacq : pc = .acquire
  · subst hacq
    by_cases hfree : s.vdiskLock = 0#32
    · show DriverInv { s with
        vdiskLock := 1#32
        task := Function.update s.task t
          (.running c (if s.vdiskLock = 0#32 then .allocTest [] 0 else .acquire)) }
      rw [if_pos hfree]
      exact hinv.acquire_succeed ht hfree
    · show DriverInv { s with
        vdiskLock := 1#32
        task := Function.update s.task t
          (.running c (if s.vdiskLock = 0#32 then .allocTest [] 0 else .acquire)) }
      rw [if_neg hfree, ← ht, Function.update_eq_self]
      exact hinv.acquire_fail
  -- Between the two the task changes nothing but the shared memory.
  · by_cases hunl : pc = .unlock
    · subst hunl
      exact hinv.unlock ht
    · have hok := hinv.tasks t
      rw [ht] at hok
      have hphase := (hok.2.2.2 hacq).1
      have hsame := (rwStep_completed c s.io pc).1
      have hmove := hinv.move ht hacq (hphase.rwStep hunl hisr) fun id _ => congrFun hsame id
      have hstep : taskStep s t c pc = { s with
          io := (rwStep c s.io pc).1
          task := Function.update s.task t (.running c (rwStep c s.io pc).2) } := by
        cases pc <;> first | rfl | exact absurd rfl hacq | exact absurd rfl hunl
      rw [hstep]
      exact hmove

/-- Every step keeps the invariant. -/
theorem step (hinv : DriverInv s) {e : VirtioEvent ι β} {s' : VirtioState ι β}
    (hstep : VirtioStep s e s') : DriverInv s' := by
  cases e with
  | setBlockno b n =>
      obtain ⟨-, rfl⟩ := hstep
      exact ⟨hinv.tasks, hinv.unique, hinv.distinct, hinv.rest, hinv.fresh, hinv.returned⟩
  | call t b write =>
      obtain ⟨-, ht, rfl⟩ := hstep
      exact hinv.call ht _ rfl
  | task t =>
      obtain ⟨hisr, c, pc, ht, rfl⟩ := hstep
      exact hinv.task ht hisr
  | isr =>
      obtain rfl := hstep
      exact hinv.isr
  | device m =>
      obtain ⟨io, hdev, rfl⟩ := hstep
      exact hinv.device hdev

end DriverInv

/-- The invariant holds after every interleaving. -/
theorem driverInv_reachable [DecidableEq ι] {s : VirtioState ι β}
    (hs : (virtioSystem ι β).Reachable s) : DriverInv s := by
  refine System.invariant (M := virtioSystem ι β) ?_ ?_ hs
  · intro s hinit
    exact driverInv_init hinit
  · intro s e s' hinv hstep
    exact hinv.step hstep

/-- The chains between the bump of `avail->idx` and the count of
`used_idx`: not yet taken, with the device, or not yet consumed. -/
def outstanding (io : DiskIo β) : Nat :=
  (io.disk.availIdx - io.lastAvail).toNat + io.inFlight.length +
    (io.disk.usedRingIdx - io.disk.usedIdx).toNat

omit [DecidableEq β] in
/-- While the disk is quiet nothing is outstanding. -/
theorem outstanding_of_quiet {io : DiskIo β} (h : Quiet io) : outstanding io = 0 := by
  rw [outstanding, h.taken, h.inFlight, h.consumed]
  simp

omit [DecidableEq β] in
/-- A chain under way is in one place. -/
theorem outstanding_of_served {c : RwCall β} {io : DiskIo β} (h : Served c io) :
    outstanding io ≤ 1 := by
  have hnext : ∀ x : BitVec 16, x + 1#16 - x = 1#16 := by
    intro x
    bv_omega
  cases h with
  | published taken inFlight consumed _ _ _ _ _ =>
      rw [outstanding, ← taken, inFlight, consumed, hnext, BitVec.sub_self]
      decide
  | inDevice stage taken inFlight consumed _ _ _ _ =>
      rw [outstanding, taken, inFlight, consumed]
      simp
  | used taken inFlight consumed _ _ _ _ | cleared taken inFlight consumed _ _ _ =>
      rw [outstanding, taken, inFlight, ← consumed, hnext, BitVec.sub_self]
      decide
  | done quiet _ _ => simp [outstanding_of_quiet quiet]

/-- At most one chain is under way, and the handler is sound, in a phase. -/
theorem Phase.safe {c : RwCall β} {io : DiskIo β} {pc : RwPc} (h : Phase c io pc) :
    outstanding io ≤ 1 ∧ io.isr ≠ .clear none ∧ io.isr ≠ .panicked ∧
      (∀ idx, pc ≠ .rollback idx) ∧ ∀ msg, pc ≠ .panicked msg := by
  have hpc : (∀ idx, pc ≠ .rollback idx) ∧ ∀ msg, pc ≠ .panicked msg := by
    refine ⟨?_, ?_⟩ <;> rintro _ rfl <;> exact h
  have hquiet : Quiet io → outstanding io ≤ 1 ∧ io.isr ≠ .clear none ∧ io.isr ≠ .panicked := by
    intro hq
    refine ⟨by simp [outstanding_of_quiet hq], ?_, ?_⟩ <;> rcases hq.isr with h | h <;> simp [h]
  -- In each place of the request the handler's program point is known.
  have hserved : Served c io →
      outstanding io ≤ 1 ∧ io.isr ≠ .clear none ∧ io.isr ≠ .panicked := by
    intro hs
    refine ⟨outstanding_of_served hs, ?_⟩
    cases hs with
    | published _ _ _ isr _ _ _ _ | inDevice _ _ _ _ isr _ _ _ =>
        rcases isr with h | h <;> simp [h]
    | used _ _ _ _ isr _ _ => rcases isr with h | h | h | h | h | h <;> simp [h]
    | cleared _ _ _ isr _ _ => simp [isr]
    | done quiet _ _ => exact (hquiet quiet).2
  cases pc with
  | acquire | rollback idx | panicked msg => exact h.elim
  | notify idx | wait idx =>
      obtain ⟨h1, h2, h3⟩ := hserved h.2.2
      exact ⟨h1, h2, h3, hpc⟩
  | unlock =>
      obtain ⟨h1, h2, h3⟩ := hquiet h.1
      exact ⟨h1, h2, h3, hpc⟩
  | _ =>
      obtain ⟨h1, h2, h3⟩ := hquiet h.2.1
      exact ⟨h1, h2, h3, hpc⟩

/-- The block driver with its device and its interrupt handler, for any
number of tasks and calls and any interleaving.

* At most one chain is under way, and at most one task has descriptors.
* The chain of a call that has returned has completed once.
* `virtio_disk_isr` finds no null `b`, and it does not panic.
* While the lock is free, all descriptors are free and no `info[].b` is
  set. `alloc3_desc` never fails, and no task panics in `free_chain`. -/
theorem virtioDriver_safe [DecidableEq ι] (s : VirtioState ι β)
    (hs : (virtioSystem ι β).Reachable s) :
    (outstanding s.io ≤ 1 ∧ ∀ t u, Driving (s.task t) → Driving (s.task u) → t = u) ∧
    (∀ id ∈ s.returned, s.io.completed id = 1) ∧
    (s.io.isr ≠ .clear none ∧ s.io.isr ≠ .panicked) ∧
    (s.vdiskLock = 0#32 →
      (∀ i < NUM, s.io.disk.table.free i = true) ∧ ∀ i, s.io.disk.infoB i = none) ∧
    ∀ t c pc, s.task t = .running c pc →
      (∀ idx, pc ≠ .rollback idx) ∧ ∀ msg, pc ≠ .panicked msg := by
  have hinv := driverInv_reachable hs
  -- The disk is at rest, or one task drives it.
  have hio : outstanding s.io ≤ 1 ∧ s.io.isr ≠ .clear none ∧ s.io.isr ≠ .panicked := by
    rcases hinv.driving_cases with hnone | ⟨t, c, pc, -, -, hphase⟩
    · have hq := (hinv.rest hnone).1
      refine ⟨by simp [outstanding_of_quiet hq], ?_, ?_⟩ <;>
        rcases hq.isr with h | h <;> simp [h]
    · obtain ⟨h1, h2, h3, -⟩ := hphase.safe
      exact ⟨h1, h2, h3⟩
  refine ⟨⟨hio.1, hinv.unique⟩, fun id hid => (hinv.returned id hid).2, hio.2, ?_, ?_⟩
  · intro hfree
    obtain ⟨-, huse, hinfo⟩ := hinv.rest (hinv.not_driving_of_free hfree)
    refine ⟨fun i hi => ?_, hinfo⟩
    rw [huse i hi]
    omega
  · intro t c pc ht
    by_cases hacq : pc = .acquire
    · subst hacq
      simp
    · have hok := hinv.tasks t
      rw [ht] at hok
      obtain ⟨-, -, -, hsafe⟩ := (hok.2.2.2 hacq).1.safe
      exact hsafe

/-- The driver with two tasks and one block, as `virtio_disk_init` leaves
it. -/
def diskReset : VirtioState Bool Unit where
  io :=
    { disk :=
        { table := ⟨fun _ => 0, fun _ => true⟩
          availIdx := 0#16
          availRing := fun _ => 0#16
          usedRingIdx := 0#16
          usedRing := fun _ => 0#32
          infoB := fun _ => none
          infoStatus := fun _ => 0#8
          usedIdx := 0#16
          ops := fun _ => ⟨0#32, 0#32, 0#64⟩
          blkDisk := fun _ => 0#32 }
      lastAvail := 0#16
      inFlight := []
      isr := .idle
      slotCall := fun _ => 0
      completed := fun _ => 0 }
  vdiskLock := 0#32
  blockno := fun _ => 1#32
  task := fun _ => .outside
  nextCall := 0
  returned := []

/-- Both tasks have called `virtio_disk_rw` on the block, and the first has
the lock. -/
def twoCalls : VirtioState Bool Unit :=
  { diskReset with
    vdiskLock := 1#32
    task := Function.update
      (Function.update
        (Function.update diskReset.task false (.running ⟨(), false, 1#64, 0⟩ .acquire))
        true (.running ⟨(), true, 1#64, 1⟩ .acquire))
      false (.running ⟨(), false, 1#64, 0⟩ (.allocTest [] 0))
    nextCall := 2 }

/-- The state is one that the system reaches. -/
theorem twoCalls_reachable : (virtioSystem Bool Unit).Reachable twoCalls := by
  have hinit : (virtioSystem Bool Unit).init diskReset := by
    refine ⟨fun _ _ => rfl, fun _ => rfl, rfl, rfl, rfl, rfl, rfl, rfl, fun _ => rfl, rfl,
      fun _ => rfl, rfl, rfl⟩
  have hfirst := (System.Reachable.of_init hinit).step (e := VirtioEvent.call false () false)
    ⟨rfl, rfl, rfl⟩
  have hsecond := hfirst.step (e := VirtioEvent.call true () true) ⟨rfl, rfl, rfl⟩
  exact hsecond.step (e := VirtioEvent.task false) ⟨rfl, ⟨(), false, 1#64, 0⟩, .acquire, rfl, rfl⟩

/-- Task `t` makes `n` steps of its call. -/
def taskSteps [DecidableEq ι] (t : ι) : Nat → VirtioState ι β → VirtioState ι β
  | 0, s => s
  | n + 1, s =>
      match s.task t with
      | .running c pc => taskSteps t n (taskStep s t c pc)
      | .outside => s

/-- A step of a task leaves the handler where it is. -/
theorem taskStep_isr [DecidableEq ι] (s : VirtioState ι β) (t : ι) (c : RwCall β) (pc : RwPc) :
    (taskStep s t c pc).io.isr = s.io.isr := by
  cases pc with
  | acquire | unlock => rfl
  | _ => exact (rwStep_completed c s.io _).2

/-- While no interrupt comes in, a task can go on. -/
theorem reachable_taskSteps [DecidableEq ι] (t : ι) (n : Nat) {s : VirtioState ι β}
    (hs : (virtioSystem ι β).Reachable s) (hidle : s.io.isr = .idle) :
    (virtioSystem ι β).Reachable (taskSteps t n s) := by
  induction n generalizing s with
  | zero => exact hs
  | succ n ih =>
      rw [taskSteps]
      cases htask : s.task t with
      | outside => exact hs
      | running c pc =>
          exact ih (hs.step (e := .task t) ⟨hidle, c, pc, htask, rfl⟩)
            ((taskStep_isr s t c pc).trans hidle)

/-- The first call waits for the device, and the device has taken its chain. -/
def takenCall : VirtioState Bool Unit :=
  let s := taskSteps false 32 twoCalls
  { s with io := { s.io with lastAvail := 1#16, inFlight := [⟨0, .taken, 0⟩] } }

/-- The state is one that the system reaches. -/
theorem takenCall_reachable : (virtioSystem Bool Unit).Reachable takenCall := by
  have hwait := reachable_taskSteps false 32 twoCalls_reachable rfl
  have hnew : (taskSteps false 32 twoCalls).io.lastAvail
      ≠ (taskSteps false 32 twoCalls).io.disk.availIdx := by decide
  exact hwait.step (e := .device .take) ⟨_, ⟨hnew, rfl⟩, rfl⟩

/-- The main result with two calls on one block, one of them at the device. -/
theorem takenCall_safe :
    outstanding takenCall.io = 1 ∧
    (∀ t u, Driving (takenCall.task t) → Driving (takenCall.task u) → t = u) ∧
    ∀ t c pc, takenCall.task t = .running c pc →
      (∀ idx, pc ≠ .rollback idx) ∧ ∀ msg, pc ≠ .panicked msg := by
  obtain ⟨⟨-, hunique⟩, -, -, -, htasks⟩ := virtioDriver_safe takenCall takenCall_reachable
  exact ⟨by decide, hunique, htasks⟩

end MiniRiscvOs.Proofs
