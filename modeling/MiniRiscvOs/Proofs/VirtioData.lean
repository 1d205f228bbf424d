import MiniRiscvOs.Kernel.VirtioData
import MiniRiscvOs.Proofs.Virtio

/-!
# `MiniRiscvOs.Proofs.VirtioData`: the driver is an atomic block store

The main result is `virtioDriver_atomic`: whatever tasks see of the driver,
the device and the handler, an atomic block store could show them, as long
as no task touches `b->data` while `b->disk` is `1`. A call of
`virtio_disk_rw` transfers its block once and as a whole, between its call
and its return.

* `Served.devStep_cases` says what a move of the device can be. Only `take`
  and `transfer` matter to the bytes.
* `DataRel` relates the driver to the store. Between `take` and `transfer`
  the bytes differ by the part of the transfer that is done.
* `virtioDriver_simulation` has a case for each kind of step. The store
  carries out a request at the `transfer` of the device.
-/

set_option autoImplicit false

namespace MiniRiscvOs.Proofs

open MiniRiscvOs.Lib
open MiniRiscvOs.Kernel

variable {β : Type}

/-! ### The request of a call -/

/-- What a call asks the store for. -/
def blockReq (c : RwCall β) : BlockReq β (BitVec 64) := ⟨c.b, c.write, c.sector⟩

/-- The request of a call as the device reads it. -/
def callReq (c : RwCall β) : BlkRequest β :=
  ⟨⟨if c.write then virtioBlkTOut else virtioBlkTIn, 0#32, c.sector⟩,
    ⟨.unsigned (.data c.b), 512#32, (if c.write then 0#16 else vringDescFWrite) ||| vringDescFNext,
      BitVec.ofNat 16 2⟩,
    ⟨.unsigned (.status 0), 1#32, vringDescFWrite, 0#16⟩⟩

/-- The device takes the direction of a call from its request. -/
theorem callReq_toDisk (c : RwCall β) : (callReq c).toDisk = some c.write := by
  obtain ⟨b, write, sector, id⟩ := c
  cases write <;>
    simp [BlkRequest.toDisk, callReq, virtioBlkTOut, virtioBlkTIn, vringDescFWrite, vringDescFNext]

/-- From the end of the formatting to the end of the wait the device can read
the request of the call. -/
def Formatted (c : RwCall β) (io : DiskIo β) : RwPc → Prop
  | .ring _ | .bump _ | .notify _ | .wait _ =>
      decodeReq Ptr.lowOps io.disk 0 = some (callReq c)
  | _ => True

/-- A request is in the table and in `disk.ops`. -/
theorem decodeReq_same {d d' : Disk β} (htable : d'.table = d.table) (hops : d'.ops = d.ops)
    (header : Ptr β → Option Nat) (head : Nat) :
    decodeReq header d' head = decodeReq header d head := by
  unfold decodeReq
  rw [htable, hops]

/-- Only the table and the headers count. -/
theorem Formatted.congr {c : RwCall β} {io io' : DiskIo β} {pc : RwPc} (h : Formatted c io pc)
    (htable : io'.disk.table = io.disk.table) (hops : io'.disk.ops = io.disk.ops) :
    Formatted c io' pc := by
  cases pc with
  | ring idx | bump idx | notify idx | wait idx => exact (decodeReq_same htable hops _ 0).trans h
  | _ => trivial

/-! ### What a move of the device can be -/

/-- The request of the call is still to be transferred. -/
def Untransferred (io : DiskIo β) : Prop :=
  io.lastAvail ≠ io.disk.availIdx ∨ ∃ r ∈ io.inFlight, r.stage = .taken

/-- A move of the device on the one request under way: it takes it, it
finishes its transfer, or it goes on after the transfer. -/
inductive DevMoved (c : RwCall β) (io : DiskIo β) (io' : DiskIo β) : DevMove → Prop where
  | take (taken : io.lastAvail ≠ io.disk.availIdx) (flight : io.inFlight = [])
      (head : (io.disk.availRing (io.lastAvail.toNat % NUM)).toNat = 0)
      (flight' : io'.inFlight = [⟨0, .taken, c.id⟩]) (disk : io'.disk = io.disk) :
      DevMoved c io io' .take
  | transfer (taken : io.lastAvail = io.disk.availIdx)
      (flight : io.inFlight = [⟨0, .taken, c.id⟩])
      (flight' : io'.inFlight = [⟨0, .transferred, c.id⟩]) (disk : io'.disk = io.disk)
      (last : io'.lastAvail = io.lastAvail) : DevMoved c io io' (.transfer 0)
  | after {m : DevMove} (hm : m ≠ .take) (hm' : ∀ k, m ≠ .transfer k)
      (done : ¬ Untransferred io) (done' : ¬ Untransferred io')
      (table : io'.disk.table = io.disk.table) (ops : io'.disk.ops = io.disk.ops) :
      DevMoved c io io' m

/-- What a step of the device does for the one request. -/
theorem Served.devStep_cases {c : RwCall β} {io io' : DiskIo β} (hsub : Submitted c io.disk)
    (h : Served c io) {m : DevMove} (hstep : DevStep io m io') : DevMoved c io io' m := by
  obtain ⟨q, hq, hstatus⟩ := hsub.statusAt
  -- With an empty list the device can only take.
  have hempty : io.inFlight = [] → m = .take := by
    intro hnil
    cases m with
    | take => rfl
    | transfer k | writeStatus k | append k | bump k =>
        obtain ⟨r, hr, -⟩ := hstep
        simp [hnil] at hr
  have htake : io.lastAvail = io.disk.availIdx → m ≠ .take := by
    rintro heq rfl
    exact hstep.1 heq
  cases h with
  | published taken inFlight consumed isr head slot disk completed =>
      obtain rfl := hempty inFlight
      obtain ⟨hne, rfl⟩ := hstep
      refine .take hne inFlight head ?_ rfl
      show io.inFlight ++ _ = _
      rw [inFlight, head, slot]
      rfl
  | inDevice stage taken inFlight consumed isr used disk completed =>
      have hplace : ∀ {k : Nat} {r : InFlight}, io.inFlight[k]? = some r →
          k = 0 ∧ r = ⟨0, stage, c.id⟩ := by
        intro k r hr
        rw [inFlight] at hr
        cases k with
        | zero => exact ⟨rfl, by simpa using hr.symm⟩
        | succ k => simp at hr
      cases m with
      | take => exact absurd taken hstep.1
      | transfer k =>
          obtain ⟨r, hr, hstage, rfl⟩ := hstep
          obtain ⟨rfl, rfl⟩ := hplace hr
          obtain rfl : stage = .taken := hstage
          exact .transfer taken inFlight (by simp [DiskIo.setStage, inFlight]) rfl rfl
      | writeStatus k =>
          obtain ⟨r, hr, hstage, hstep⟩ := hstep
          obtain ⟨rfl, rfl⟩ := hplace hr
          obtain rfl := hstep q 0 hq hstatus
          obtain rfl : stage = .transferred := hstage
          refine .after (by simp) (by simp) ?_ ?_ rfl rfl
          · simp [Untransferred, taken, inFlight]
          · simp [Untransferred, DiskIo.setStage, taken, inFlight]
      | append k =>
          obtain ⟨r, hr, hstage, -, rfl⟩ := hstep
          obtain ⟨rfl, rfl⟩ := hplace hr
          obtain rfl : stage = .statusWritten := hstage
          refine .after (by simp) (by simp) ?_ ?_ rfl rfl
          · simp [Untransferred, taken, inFlight]
          · simp [Untransferred, DiskIo.setStage, usedPut, taken, inFlight]
      | bump k =>
          obtain ⟨r, hr, hstage, rfl⟩ := hstep
          obtain ⟨rfl, rfl⟩ := hplace hr
          obtain rfl : stage = .appended := hstage
          refine .after (by simp) (by simp) ?_ ?_ rfl rfl
          · simp [Untransferred, taken, inFlight]
          · simp [Untransferred, taken, inFlight]
  | used taken inFlight _ _ _ _ _ => exact absurd (hempty inFlight) (htake taken)
  | cleared taken inFlight _ _ _ _ => exact absurd (hempty inFlight) (htake taken)
  | done quiet _ _ => exact absurd hstep (quiet.not_devStep m)

/-! ### What a statement of the driver can be -/

section Statements

variable [DecidableEq β]

omit [DecidableEq β] in
/-- The device has no request but that of the call. -/
theorem Served.inFlight {c : RwCall β} {io : DiskIo β} (h : Served c io)
    (hne : io.inFlight ≠ []) : ∃ stage, io.inFlight = [⟨0, stage, c.id⟩] := by
  cases h with
  | inDevice stage taken inFlight => exact ⟨stage, inFlight⟩
  | published _ inFlight | used _ inFlight | cleared _ inFlight => exact absurd inFlight hne
  | done quiet => exact absurd quiet.inFlight hne

/-- Where something is under way, the driver is waiting for it. -/
theorem Phase.waiting {c : RwCall β} {io : DiskIo β} {pc : RwPc} (h : Phase c io pc)
    (hbusy : ¬ Quiet io) :
    (∃ idx, pc = .notify idx ∨ pc = .wait idx) ∧ Submitted c io.disk ∧ Served c io := by
  cases pc with
  | acquire | rollback idx | panicked msg => exact h.elim
  | notify idx => exact ⟨⟨idx, Or.inl rfl⟩, h.2⟩
  | wait idx => exact ⟨⟨idx, Or.inr rfl⟩, h.2⟩
  | unlock => exact absurd h.1 hbusy
  | _ => exact absurd h.2.1 hbusy

/-- The driver takes nothing from the device. -/
theorem rwStep_device (c : RwCall β) (io : DiskIo β) (pc : RwPc) :
    (rwStep c io pc).1.inFlight = io.inFlight ∧ (rwStep c io pc).1.lastAvail = io.lastAvail := by
  unfold rwStep
  split
  all_goals first
    | exact ⟨rfl, rfl⟩
    | (split <;> first | exact ⟨rfl, rfl⟩ | (split <;> exact ⟨rfl, rfl⟩))

/-- The handler touches neither the requests nor what the device has. -/
theorem isrStep_device (io : DiskIo β) :
    (isrStep io).disk.table = io.disk.table ∧ (isrStep io).disk.ops = io.disk.ops ∧
      (isrStep io).inFlight = io.inFlight ∧ (isrStep io).lastAvail = io.lastAvail ∧
      (isrStep io).disk.availIdx = io.disk.availIdx := by
  unfold isrStep
  split <;> exact ⟨rfl, rfl, rfl, rfl, rfl⟩

/-- The device can read the request once the driver has formatted it. -/
theorem Formatted.rwStep {c : RwCall β} {io : DiskIo β} {pc : RwPc} (hphase : Phase c io pc)
    (h : Formatted c io pc) (hpc : pc ≠ .unlock) :
    Formatted c (Kernel.rwStep c io pc).1 (Kernel.rwStep c io pc).2 := by
  cases pc with
  | acquire | rollback idx | panicked msg => exact hphase.elim
  | unlock => exact absurd rfl hpc
  | allocTest idx i =>
      rw [Kernel.rwStep]
      split
      · trivial
      · split <;> trivial
  | allocTake idx i =>
      show Formatted c _ (if (idx ++ [i]).length = 3 then _ else _)
      split <;> trivial
  | format idx k =>
      obtain ⟨rfl, -, -, d, -, -, hdisk⟩ := hphase
      rw [Kernel.rwStep]
      cases hk : (rwFormat c [0, 1, 2])[k]? with
      | some stmt => trivial
      | none =>
          -- The last statement of the formatting is behind: the chain is complete.
          have hall : (rwFormat c [0, 1, 2]).take k = rwFormat c [0, 1, 2] :=
            List.take_of_length_le (List.getElem?_eq_none_iff.mp hk)
          rw [hall] at hdisk
          have hdone : io.disk = formatted c [0, 1, 2] d := hdisk
          show decodeReq Ptr.lowOps io.disk 0 = _
          rw [hdone]
          have hnodup : [0, 1, 2].Nodup := by decide
          have hheader : Ptr.lowOps (.signed (.ops 0) : Ptr β) = some 0 := rfl
          have hops := (formatted_fields c hnodup d).1
          rw [decodeReq_formatted c hnodup (by decide) d, hheader, Option.map_some, hops]
          rfl
  | ring idx => exact h
  | bump idx => exact h
  | notify idx => exact h
  | wait idx =>
      show Formatted c io (if io.disk.blkDisk c.b = 1#32 then _ else _)
      split
      · exact h
      · trivial
  | clearB idx | chainFlags i | chainNext i flag => trivial
  | freeTest i flag nxt =>
      rw [Kernel.rwStep]
      split
      · trivial
      · split <;> trivial
  | freeStmt i flag nxt k =>
      rw [Kernel.rwStep]
      split
      · trivial
      · -- Behind the wait nothing is asked of the chain any more.
        show Formatted c io (if flag &&& vringDescFNext ≠ 0#16 then _ else _)
        split <;> trivial

/-! ### The driver and the store -/

/-- Where the client of a task is in the store. -/
def ClientRel (io : DiskIo β) (τ : RwTask β) (cl : BlockClient β (BitVec 64)) : Prop :=
  match τ with
  | .outside => cl = .idle
  | .running c pc =>
      match pc with
      | .notify _ | .wait _ =>
          (Untransferred io ∧ cl = .asked (blockReq c)) ∨ (¬ Untransferred io ∧ cl = .answered)
      | .clearB _ | .chainFlags _ | .chainNext _ _ | .freeTest _ _ _ | .freeStmt _ _ _ _ |
        .unlock => cl = .answered
      | _ => cl = .asked (blockReq c)

omit [DecidableEq β] in
/-- Only the requests of the device and the two indices count. -/
theorem untransferred_congr {io io' : DiskIo β} (hflight : io'.inFlight = io.inFlight)
    (hlast : io'.lastAvail = io.lastAvail) (havail : io'.disk.availIdx = io.disk.availIdx) :
    Untransferred io' ↔ Untransferred io := by
  unfold Untransferred
  rw [hflight, hlast, havail]

omit [DecidableEq β] in
/-- With nothing under way, nothing is still to be transferred. -/
theorem Quiet.not_untransferred {io : DiskIo β} (h : Quiet io) : ¬ Untransferred io := by
  rintro (hne | ⟨r, hr, -⟩)
  · exact hne h.taken
  · simp [h.inFlight] at hr

omit [DecidableEq β] in
/-- Only the place of the task and the transfer count. -/
theorem ClientRel.congr {io io' : DiskIo β} {τ : RwTask β} {cl : BlockClient β (BitVec 64)}
    (h : ClientRel io τ cl) (hiff : Untransferred io' ↔ Untransferred io) :
    ClientRel io' τ cl := by
  cases τ with
  | outside => exact h
  | running c pc =>
      cases pc with
      | notify idx | wait idx =>
          show (Untransferred io' ∧ _) ∨ (¬ Untransferred io' ∧ _)
          rw [hiff]
          exact h
      | _ => exact h

/-- A statement of the driver shows the store nothing. The store has carried
out the request by the time the wait ends. -/
theorem ClientRel.rwStep {c : RwCall β} {io : DiskIo β} {pc : RwPc}
    {cl : BlockClient β (BitVec 64)} (hphase : Phase c io pc)
    (h : ClientRel io (.running c pc) cl) (hpc : pc ≠ .unlock) (hisr : io.isr = .idle) :
    ClientRel (Kernel.rwStep c io pc).1 (.running c (Kernel.rwStep c io pc).2) cl := by
  cases pc with
  | acquire | rollback idx | panicked msg => exact hphase.elim
  | unlock => exact absurd rfl hpc
  | allocTest idx i =>
      rw [Kernel.rwStep]
      split
      · exact h
      · split <;> exact h
  | allocTake idx i =>
      show ClientRel _ (.running c (if (idx ++ [i]).length = 3 then _ else _)) cl
      split <;> exact h
  | format idx k =>
      rw [Kernel.rwStep]
      split <;> exact h
  | ring idx => exact h
  | bump idx =>
      -- The increment of `avail->idx` makes the request, which is untransferred.
      obtain ⟨-, hquiet, -⟩ := hphase
      refine Or.inl ⟨Or.inl ?_, h⟩
      show io.lastAvail ≠ io.disk.availIdx + 1#16
      rw [hquiet.taken]
      bv_omega
  | notify idx => exact h
  | wait idx =>
      have hnext := hphase.wait hisr
      change ClientRel io (.running c (if io.disk.blkDisk c.b = 1#32 then _ else _)) cl
      change Phase c io (if io.disk.blkDisk c.b = 1#32 then _ else _) at hnext
      split
      · exact h
      · rename_i hne
        rw [if_neg hne] at hnext
        -- The wait ends on a quiet disk, so the transfer has been made.
        obtain ⟨-, hquiet, -⟩ := hnext
        rcases h with ⟨hun, -⟩ | ⟨-, hans⟩
        · exact absurd hun hquiet.not_untransferred
        · exact hans
  | clearB idx | chainFlags i | chainNext i flag => exact h
  | freeTest i flag nxt =>
      -- The chain is the call's own, so `free_desc` does not panic.
      have hnext := hphase.rwStep (by simp) hisr
      rw [Kernel.rwStep] at hnext ⊢
      split
      · rename_i hge
        rw [if_pos hge] at hnext
        exact hnext.elim
      · rename_i hlt
        split
        · rename_i hfree
          rw [if_neg hlt, if_pos hfree] at hnext
          exact hnext.elim
        · exact h
  | freeStmt i flag nxt k =>
      rw [Kernel.rwStep]
      split
      · exact h
      · show ClientRel io (.running c (if flag &&& vringDescFNext ≠ 0#16 then _ else _)) cl
        split <;> exact h

end Statements

/-! ### The relation -/

section Relation

variable {ι : Type} [DecidableEq ι] [DecidableEq β]

/-- The store of the driver: sectors are 64-bit numbers of blocks of
`BSIZE` bytes. -/
abbrev DiskStore (ι β : Type) := BlockStore ι β (BitVec 64) (Fin BSIZE) Byte

/-- Disk and blocks have the contents of the store. -/
def Agree (s : DataState ι β) (a : DiskStore ι β) : Prop :=
  s.sectors = a.sectors ∧ s.data = a.bufs

/-- The driver with its device and the store. While the device has the
request of a call and has yet to finish its transfer, the contents differ by
the bytes it has moved. -/
structure DataRel (s : DataState ι β) (a : DiskStore ι β) : Prop where
  inv : DriverInv s.virtio
  formatted : ∀ t c pc, s.virtio.task t = .running c pc → Formatted c s.virtio.io pc
  clients : ∀ t, ClientRel s.virtio.io (s.virtio.task t) (a.client t)
  settled : (∀ r ∈ s.virtio.io.inFlight, r.stage ≠ .taken) → Agree s a
  underWay : ∀ t c pc, s.virtio.task t = .running c pc →
    s.virtio.io.inFlight = [⟨0, .taken, c.id⟩] → Agree s (a.transferPart (blockReq c) (s.moved 0))

omit [DecidableEq ι] in
/-- Beside a driving task the others are outside or wait for the lock. -/
theorem DriverInv.waits {s : VirtioState ι β} (hinv : DriverInv s) {t u : ι} {c d : RwCall β}
    {pc qc : RwPc} (ht : s.task t = .running c pc) (hpc : pc ≠ .acquire) (hut : u ≠ t)
    (hu : s.task u = .running d qc) : qc = .acquire := by
  by_contra hqc
  exact hut (hinv.unique u t (driving_of_running hu hqc) (driving_of_running ht hpc))

omit [DecidableEq ι] in
/-- Whose request is under way. -/
theorem DriverInv.request {s : VirtioState ι β} (hinv : DriverInv s) (hbusy : ¬ Quiet s.io) :
    ∃ t c pc, s.task t = .running c pc ∧ pc ≠ .acquire ∧
      (∃ idx, pc = .notify idx ∨ pc = .wait idx) ∧ Submitted c s.io.disk ∧ Served c s.io := by
  rcases hinv.driving_cases with hnone | ⟨t, c, pc, ht, hpc, hphase⟩
  · exact absurd (hinv.rest hnone).1 hbusy
  · exact ⟨t, c, pc, ht, hpc, hphase.waiting hbusy⟩

omit [DecidableEq ι] in
/-- The request the device has is that of a call with a number. -/
theorem DriverInv.inFlight_lt {s : VirtioState ι β} (hinv : DriverInv s) {r : InFlight}
    (hr : s.io.inFlight = [r]) : r.call < s.nextCall := by
  have hbusy : ¬ Quiet s.io := by
    intro hq
    simp [hq.inFlight] at hr
  obtain ⟨t, c, pc, ht, -, -, -, hserved⟩ := hinv.request hbusy
  have hok := hinv.tasks t
  rw [ht] at hok
  obtain ⟨stage, hflight⟩ := hserved.inFlight (by simp [hr])
  obtain rfl : (⟨0, stage, c.id⟩ : InFlight) = r := by simpa [hflight] using hr
  exact hok.1

variable {s : DataState ι β} {a : DiskStore ι β}

omit [DecidableEq ι] in
/-- A new state of the clients leaves the contents. -/
theorem agree_client {cl : ι → BlockClient β (BitVec 64)} {r : BlockReq β (BitVec 64)}
    {m : Fin BSIZE → Bool} (h : Agree s (a.transferPart r m)) :
    Agree s (({ a with client := cl } : DiskStore ι β).transferPart r m) := by
  rw [BlockStore.transferPart_client]
  exact h

omit [DecidableEq ι] in
/-- A step that moves no byte and leaves the device alone. -/
theorem DataRel.keep (h : DataRel s a) {v : VirtioState ι β}
    {cl : ι → BlockClient β (BitVec 64)} (hinv : DriverInv v)
    (hflight : v.io.inFlight = s.virtio.io.inFlight)
    (hcalls : ∀ t c pc, v.task t = .running c pc → c.id < s.virtio.nextCall →
      ∃ qc, s.virtio.task t = .running c qc)
    (hformatted : ∀ t c pc, v.task t = .running c pc → Formatted c v.io pc)
    (hclients : ∀ t, ClientRel v.io (v.task t) (cl t)) :
    DataRel { s with virtio := v } { a with client := cl } := by
  refine ⟨hinv, hformatted, hclients, fun hnone => ?_, fun t c pc ht hrun => ?_⟩
  · change ∀ r ∈ v.io.inFlight, r.stage ≠ .taken at hnone
    rw [hflight] at hnone
    exact h.settled hnone
  · change v.io.inFlight = _ at hrun
    rw [hflight] at hrun
    obtain ⟨qc, hqc⟩ := hcalls t c pc ht (h.inv.inFlight_lt hrun)
    exact agree_client (h.underWay t c qc hqc hrun)

omit [DecidableEq ι] in
/-- A step that changes neither the store nor the requests, tasks nor the
device. -/
theorem DataRel.keep_io (h : DataRel s a) {io : DiskIo β}
    (hinv : DriverInv { s.virtio with io := io })
    (hflight : io.inFlight = s.virtio.io.inFlight) (hlast : io.lastAvail = s.virtio.io.lastAvail)
    (havail : io.disk.availIdx = s.virtio.io.disk.availIdx)
    (htable : io.disk.table = s.virtio.io.disk.table)
    (hops : io.disk.ops = s.virtio.io.disk.ops) :
    DataRel { s with virtio := { s.virtio with io := io } } a :=
  h.keep hinv hflight (fun _ _ pc ht _ => ⟨pc, ht⟩)
    (fun t c pc ht => (h.formatted t c pc ht).congr htable hops)
    (fun t => (h.clients t).congr (untransferred_congr hflight hlast havail))

/-- A task calls `virtio_disk_rw`. -/
theorem DataRel.call (h : DataRel s a) {t : ι} {c : RwCall β} (ht : s.virtio.task t = .outside)
    (hid : c.id = s.virtio.nextCall) :
    DataRel
      { s with virtio := { s.virtio with
        task := Function.update s.virtio.task t (.running c .acquire)
        nextCall := s.virtio.nextCall + 1 } }
      (a.setClient t (.asked (blockReq c))) := by
  -- The only client that moves is that of `t`: it asks.
  refine h.keep (h.inv.call ht c hid) rfl ?_ ?_ ?_
  · intro u d pc hu hlt
    change Function.update s.virtio.task t (.running c .acquire) u = _ at hu
    by_cases hut : u = t
    · rw [hut, Function.update_self] at hu
      obtain ⟨rfl, -⟩ := RwTask.running.inj hu
      omega
    · rw [Function.update_of_ne hut] at hu
      exact ⟨pc, hu⟩
  · intro u d pc hu
    change Function.update s.virtio.task t (.running c .acquire) u = _ at hu
    by_cases hut : u = t
    · rw [hut, Function.update_self] at hu
      obtain ⟨-, rfl⟩ := RwTask.running.inj hu
      trivial
    · rw [Function.update_of_ne hut] at hu
      exact h.formatted u d pc hu
  · intro u
    show ClientRel _ (Function.update s.virtio.task t _ u) (Function.update a.client t _ u)
    by_cases hut : u = t
    · rw [hut, Function.update_self, Function.update_self]
      rfl
    · rw [Function.update_of_ne hut, Function.update_of_ne hut]
      exact h.clients u

/-- A statement of a task past `lock_acquire` and before `lock_free`. -/
theorem DataRel.rwStep (h : DataRel s a) {t : ι} {c : RwCall β} {pc : RwPc}
    (ht : s.virtio.task t = .running c pc) (hacq : pc ≠ .acquire) (hunl : pc ≠ .unlock)
    (hisr : s.virtio.io.isr = .idle) (hinv : DriverInv (taskStep s.virtio t c pc)) :
    DataRel { s with virtio := taskStep s.virtio t c pc } a := by
  have hok := h.inv.tasks t
  rw [ht] at hok
  have hphase := (hok.2.2.2 hacq).1
  have hstep : taskStep s.virtio t c pc = { s.virtio with
      io := (Kernel.rwStep c s.virtio.io pc).1
      task := Function.update s.virtio.task t
        (.running c (Kernel.rwStep c s.virtio.io pc).2) } := by
    cases pc <;> first | rfl | exact absurd rfl hacq | exact absurd rfl hunl
  rw [hstep] at hinv ⊢
  obtain ⟨hflight, -⟩ := rwStep_device c s.virtio.io pc
  refine h.keep hinv hflight ?_ ?_ ?_
  · intro u d qc hu _
    change Function.update s.virtio.task t _ u = _ at hu
    by_cases hut : u = t
    · rw [hut, Function.update_self] at hu
      obtain ⟨rfl, -⟩ := RwTask.running.inj hu
      exact ⟨pc, by rw [hut, ht]⟩
    · rw [Function.update_of_ne hut] at hu
      exact ⟨qc, hu⟩
  · intro u d qc hu
    change Function.update s.virtio.task t _ u = _ at hu
    by_cases hut : u = t
    · rw [hut, Function.update_self] at hu
      obtain ⟨rfl, rfl⟩ := RwTask.running.inj hu
      exact (h.formatted t c pc ht).rwStep hphase hunl
    · rw [Function.update_of_ne hut] at hu
      obtain rfl := h.inv.waits ht hacq hut hu
      trivial
  · intro u
    show ClientRel _ (Function.update s.virtio.task t _ u) (a.client u)
    have hu := h.clients u
    by_cases hut : u = t
    · subst hut
      rw [Function.update_self]
      rw [ht] at hu
      exact hu.rwStep hphase hunl hisr
    · rw [Function.update_of_ne hut]
      -- What another task waits for is `vdisk_lock`, and not the device.
      cases hτ : s.virtio.task u with
      | outside =>
          rw [hτ] at hu
          exact hu
      | running d qc =>
          obtain rfl := h.inv.waits ht hacq hut hτ
          rw [hτ] at hu
          exact hu

/-- The `amoswap` of `lock_acquire`, whether it gets the lock or not. -/
theorem DataRel.acquire (h : DataRel s a) {t : ι} {c : RwCall β}
    (ht : s.virtio.task t = .running c .acquire)
    (hinv : DriverInv (taskStep s.virtio t c .acquire)) :
    DataRel { s with virtio := taskStep s.virtio t c .acquire } a := by
  -- The task gets into the section or stays where it was. The others do not move.
  have hnext : ∀ u d pc, (taskStep s.virtio t c .acquire).task u = .running d pc →
      (u = t ∧ d = c ∧ (pc = .acquire ∨ pc = .allocTest [] 0)) ∨
        s.virtio.task u = .running d pc := by
    intro u d pc hu
    change Function.update s.virtio.task t _ u = _ at hu
    by_cases hut : u = t
    · rw [hut, Function.update_self] at hu
      obtain ⟨rfl, rfl⟩ := RwTask.running.inj hu
      refine Or.inl ⟨hut, rfl, ?_⟩
      split
      · exact Or.inr rfl
      · exact Or.inl rfl
    · rw [Function.update_of_ne hut] at hu
      exact Or.inr hu
  refine h.keep hinv rfl ?_ ?_ ?_
  · intro u d pc hu _
    rcases hnext u d pc hu with ⟨rfl, rfl, -⟩ | hu
    · exact ⟨_, ht⟩
    · exact ⟨pc, hu⟩
  · intro u d pc hu
    rcases hnext u d pc hu with ⟨-, -, rfl | rfl⟩ | hu
    · trivial
    · trivial
    · exact h.formatted u d pc hu
  · intro u
    have hu := h.clients u
    show ClientRel s.virtio.io (Function.update s.virtio.task t _ u) (a.client u)
    by_cases hut : u = t
    · subst hut
      rw [Function.update_self]
      rw [ht] at hu
      split <;> exact hu
    · rw [Function.update_of_ne hut]
      exact hu

/-- `lock_free` and the return. -/
theorem DataRel.unlock (h : DataRel s a) {t : ι} {c : RwCall β}
    (ht : s.virtio.task t = .running c .unlock)
    (hinv : DriverInv (taskStep s.virtio t c .unlock)) :
    a.client t = .answered ∧
      DataRel { s with virtio := taskStep s.virtio t c .unlock } (a.setClient t .idle) := by
  have hanswered := h.clients t
  rw [ht] at hanswered
  refine ⟨hanswered, h.keep hinv rfl ?_ ?_ ?_⟩
  · -- Whoever is in a call afterwards was in it before.
    intro u d pc hu _
    change Function.update s.virtio.task t .outside u = _ at hu
    by_cases hut : u = t
    · simp [hut] at hu
    · rw [Function.update_of_ne hut] at hu
      exact ⟨pc, hu⟩
  · intro u d pc hu
    change Function.update s.virtio.task t .outside u = _ at hu
    by_cases hut : u = t
    · simp [hut] at hu
    · rw [Function.update_of_ne hut] at hu
      exact h.formatted u d pc hu
  · -- The store sees the client of `t` as idle again.
    intro u
    show ClientRel _ (Function.update s.virtio.task t _ u) (Function.update a.client t _ u)
    by_cases hut : u = t
    · rw [hut, Function.update_self, Function.update_self]
      rfl
    · rw [Function.update_of_ne hut, Function.update_of_ne hut]
      exact h.clients u

omit [DecidableEq ι] in
/-- What the store knows of the task that waits for the device. -/
theorem DataRel.waiting (h : DataRel s a) (hbusy : ¬ Quiet s.virtio.io) :
    ∃ t c pc, s.virtio.task t = .running c pc ∧ pc ≠ .acquire ∧
      (∃ idx, pc = .notify idx ∨ pc = .wait idx) ∧ Submitted c s.virtio.io.disk ∧
      Served c s.virtio.io ∧ decodeReq Ptr.lowOps s.virtio.io.disk 0 = some (callReq c) ∧
      (Untransferred s.virtio.io → a.client t = .asked (blockReq c)) ∧
      (¬ Untransferred s.virtio.io → a.client t = .answered) := by
  obtain ⟨t, c, pc, ht, hacq, hpc, hsub, hserved⟩ := h.inv.request hbusy
  have hformatted := h.formatted t c pc ht
  have hclient := h.clients t
  rw [ht] at hclient
  refine ⟨t, c, pc, ht, hacq, hpc, hsub, hserved, ?_, fun hun => ?_, fun hdone => ?_⟩
  · obtain ⟨idx, rfl | rfl⟩ := hpc <;> exact hformatted
  · obtain ⟨idx, rfl | rfl⟩ := hpc <;> exact (hclient.resolve_right fun hn => hn.1 hun).2
  · obtain ⟨idx, rfl | rfl⟩ := hpc <;> exact (hclient.resolve_left fun hn => hdone hn.1).2

/-- The device goes on with the request of task `t`. The other tasks are
outside or wait for the lock, so it is nothing to them. -/
theorem DataRel.advance (h : DataRel s a) {t : ι} {c : RwCall β} {pc : RwPc}
    (ht : s.virtio.task t = .running c pc) (hacq : pc ≠ .acquire)
    (hpc : ∃ idx, pc = .notify idx ∨ pc = .wait idx) {s' : DataState ι β} {a' : DiskStore ι β}
    {io : DiskIo β} (hs' : s'.virtio = { s.virtio with io := io })
    (hinv : DriverInv { s.virtio with io := io })
    (hreq : decodeReq Ptr.lowOps io.disk 0 = some (callReq c))
    (hcl : ∀ u, u ≠ t → a'.client u = a.client u)
    (hasked : Untransferred io → a'.client t = .asked (blockReq c))
    (hanswered : ¬ Untransferred io → a'.client t = .answered)
    (hsettled : (∀ r ∈ io.inFlight, r.stage ≠ .taken) → Agree s' a')
    (hunder : io.inFlight = [⟨0, .taken, c.id⟩] →
      Agree s' (a'.transferPart (blockReq c) (s'.moved 0))) :
    DataRel s' a' := by
  have hwaits : ∀ u d qc, u ≠ t → s.virtio.task u = .running d qc → qc = .acquire :=
    fun u d qc hut hu => h.inv.waits ht hacq hut hu
  refine ⟨by rw [hs']; exact hinv, ?_, ?_, ?_, ?_⟩ <;> rw [hs']
  · intro u d qc hu
    by_cases hut : u = t
    · obtain ⟨rfl, rfl⟩ := RwTask.running.inj (hu.symm.trans (hut ▸ ht))
      obtain ⟨idx, rfl | rfl⟩ := hpc <;> exact hreq
    · obtain rfl := hwaits u d qc hut hu
      trivial
  · intro u
    show ClientRel io (s.virtio.task u) (a'.client u)
    by_cases hut : u = t
    · have hcases : (Untransferred io ∧ a'.client t = .asked (blockReq c)) ∨
          (¬ Untransferred io ∧ a'.client t = .answered) := by
        by_cases hun : Untransferred io
        · exact Or.inl ⟨hun, hasked hun⟩
        · exact Or.inr ⟨hun, hanswered hun⟩
      rw [hut, ht]
      obtain ⟨idx, rfl | rfl⟩ := hpc <;> exact hcases
    · have hu := h.clients u
      rw [hcl u hut]
      cases hτ : s.virtio.task u with
      | outside =>
          rw [hτ] at hu
          exact hu
      | running d qc =>
          obtain rfl := hwaits u d qc hut hτ
          rw [hτ] at hu
          exact hu
  · exact hsettled
  · intro u d qc hu hrun
    -- The call numbers tell whose request it is.
    have hid : d.id = c.id := by
      by_contra hne
      have hbusy : ¬ Quiet io := fun hq => by
        have hrun' : io.inFlight = _ := hrun
        simp [hq.inFlight] at hrun'
      obtain ⟨v, e, rc, hv, hracq, -, -, hserved⟩ := hinv.request hbusy
      have hvt : v = t :=
        hinv.unique v t (driving_of_running hv hracq) (driving_of_running ht hacq)
      subst hvt
      obtain ⟨rfl, -⟩ := RwTask.running.inj (hv.symm.trans ht)
      have hflight : ∃ stage, io.inFlight = [⟨0, stage, e.id⟩] := hserved.inFlight (by
        rw [show io.inFlight = _ from hrun]
        simp)
      obtain ⟨stage, hflight⟩ := hflight
      have heq := hflight.symm.trans hrun
      exact hne (InFlight.mk.inj (List.cons.inj heq).1).2.2.symm
    obtain rfl := h.inv.distinct u t d qc c pc hu ht hid
    obtain ⟨rfl, -⟩ := RwTask.running.inj (hu.symm.trans ht)
    exact hunder hrun

/-- A move of the device. At the end of a transfer the store carries out the
request of the call. -/
theorem DataRel.device (h : DataRel s a) {m : DevMove} {io : DiskIo β}
    (hstep : DevStep s.virtio.io m io) (hready : ∀ k, m = .transfer k → AllMoved s k) :
    ∃ a' f, BlockStep? a f a' ∧ f.toList.filterMap BlockEvent.visible = [] ∧
      DataRel { s with
        virtio := { s.virtio with io := io }
        moved := movedAfter s (.device m) } a' := by
  have hbusy : ¬ Quiet s.virtio.io := fun hq => hq.not_devStep m hstep
  obtain ⟨t, c, pc, ht, hacq, hpc, hsub, hserved, hreq, hasked, hanswered⟩ := h.waiting hbusy
  have hinv := h.inv.device hstep
  cases hserved.devStep_cases hsub hstep with
  | take hne hflight hhead hflight' hdisk =>
      have hun : Untransferred io := Or.inr ⟨⟨0, .taken, c.id⟩, by simp [hflight'], rfl⟩
      have hagree : Agree s a := h.settled (by simp [hflight])
      refine ⟨a, none, rfl, rfl, h.advance ht hacq hpc rfl hinv ?_
        (fun _ _ => rfl) (fun _ => hasked (Or.inl hne)) (fun hn => absurd hun hn) ?_ fun _ => ?_⟩
      · rw [hdisk]
        exact hreq
      · intro hnone
        exact absurd rfl (hnone ⟨0, .taken, c.id⟩ (by simp [hflight']))
      · -- No byte has been moved yet.
        have hmoved : movedAfter s (.device .take) 0 = fun _ => false := by
          show Function.update s.moved _ _ 0 = _
          rw [hhead, Function.update_self]
        show Agree _ (a.transferPart (blockReq c) (movedAfter s (.device .take) 0))
        rw [hmoved, BlockStore.transferPart_none]
        exact hagree
  | transfer htaken hflight hflight' hdisk hlast =>
      have hun : Untransferred s.virtio.io := Or.inr ⟨⟨0, .taken, c.id⟩, by simp [hflight], rfl⟩
      have hdone : ¬ Untransferred io := by
        simp [Untransferred, hflight', hdisk, hlast, htaken]
      -- All bytes have been moved.
      have hall : ∀ j, s.moved 0 j = true := hready 0 rfl ⟨0, .taken, c.id⟩ (by simp [hflight])
      have hagree := h.underWay t c pc ht hflight
      rw [BlockStore.transferPart_all a (blockReq c) hall] at hagree
      refine ⟨(a.transfer (blockReq c)).setClient t .answered, some (.move t),
        ⟨blockReq c, hasked hun, rfl⟩, rfl,
        h.advance ht hacq hpc rfl hinv ?_ ?_ (fun hn => absurd hn hdone)
          (fun _ => Function.update_self ..) (fun _ => hagree) fun hrun => ?_⟩
      · rw [hdisk]
        exact hreq
      · intro u hut
        show Function.update (a.transfer (blockReq c)).client t .answered u = _
        rw [Function.update_of_ne hut, BlockStore.transfer_client]
      · simp [hflight'] at hrun
  | after hm hm' hdone hdone' htable hops =>
      have hmoved : movedAfter s (.device m) = s.moved := by
        unfold movedAfter
        split
        · rename_i heq
          exact absurd (VirtioEvent.device.inj heq) hm
        · rfl
      have hnone : ∀ r ∈ s.virtio.io.inFlight, r.stage ≠ .taken := by
        intro r hr hst
        exact hdone (Or.inr ⟨r, hr, hst⟩)
      refine ⟨a, none, rfl, rfl, h.advance ht hacq hpc rfl hinv ?_
        (fun _ _ => rfl) (fun hn => absurd hn hdone') (fun _ => hanswered hdone)
        (fun _ => h.settled hnone) fun hrun => ?_⟩
      · rw [decodeReq_same htable hops]
        exact hreq
      · exact absurd (Or.inr ⟨⟨0, .taken, c.id⟩, by simp [hrun], rfl⟩) hdone'

/-- The device moves a byte of the request under way. -/
theorem DataRel.moveByte (h : DataRel s a) {k : Nat} {j : Fin BSIZE} {s' : DataState ι β}
    (hstep : DataStep s (.moveByte k j) s') : DataRel s' a := by
  obtain ⟨r, hr, hstage, hstep⟩ := hstep
  have hne : s.virtio.io.inFlight ≠ [] := by
    intro hnil
    simp [hnil] at hr
  have hbusy : ¬ Quiet s.virtio.io := fun hq => hne hq.inFlight
  obtain ⟨t, c, pc, ht, hacq, hpc, hsub, hserved, hreq, hasked, hanswered⟩ := h.waiting hbusy
  obtain ⟨stage, hflight⟩ := hserved.inFlight hne
  -- The request is the only one, so it is that of the call.
  obtain rfl : (⟨0, stage, c.id⟩ : InFlight) = r := by
    rw [hflight] at hr
    cases k with
    | zero => exact Option.some.inj hr
    | succ k => simp at hr
  obtain rfl : stage = .taken := hstage
  obtain rfl : s' = (s.copyByte c.write c.b c.sector j).mark 0 j :=
    hstep (callReq c) c.b c.write hreq rfl rfl (callReq_toDisk c)
  obtain ⟨hsectors, hdata⟩ := h.underWay t c pc ht hflight
  have hsame : ((s.copyByte c.write c.b c.sector j).mark 0 j).virtio
      = { s.virtio with io := s.virtio.io } := by
    unfold DataState.copyByte DataState.mark
    split <;> rfl
  refine h.advance ht hacq hpc hsame h.inv hreq (fun _ _ => rfl) hasked
    hanswered (fun hnone => ?_) fun _ => ?_
  · exact absurd rfl (hnone ⟨0, .taken, c.id⟩ (by simp [hflight]))
  · have hmoved : ((s.copyByte c.write c.b c.sector j).mark 0 j).moved 0
        = Function.update (s.moved 0) j true := by
      unfold DataState.copyByte DataState.mark
      cases c.write <;> exact Function.update_self (0 : Nat) _ s.moved
    rw [hmoved, ← BlockStore.transferPart_place]
    unfold DataState.copyByte DataState.mark BlockStore.transferPlace
    show Agree _ (if c.write = true then _ else _)
    split
    · exact ⟨by simp only [hsectors, hdata]; rfl, hdata⟩
    · exact ⟨hsectors, by simp only [hsectors, hdata]; rfl⟩

omit [DecidableEq ι] in
/-- A block that the disk does not own is not the one under way. -/
theorem DataRel.ne_buf (h : DataRel s a) {b : β} (howned : s.virtio.io.disk.blkDisk b ≠ 1#32)
    {t : ι} {c : RwCall β} {pc : RwPc} (ht : s.virtio.task t = .running c pc)
    (hflight : s.virtio.io.inFlight = [⟨0, .taken, c.id⟩]) : b ≠ c.b := by
  rintro rfl
  have hbusy : ¬ Quiet s.virtio.io := by
    intro hq
    simp [hq.inFlight] at hflight
  obtain ⟨u, d, qc, hu, -, -, -, hserved⟩ := h.inv.request hbusy
  cases hserved with
  | inDevice stage _ hflight' _ _ _ hdisk =>
      have hid : d.id = c.id := by
        rw [hflight'] at hflight
        exact (InFlight.mk.inj (List.cons.inj hflight).1).2.2
      obtain rfl := h.inv.distinct u t d qc c pc hu ht hid
      obtain ⟨rfl, -⟩ := RwTask.running.inj (hu.symm.trans ht)
      exact howned hdisk
  | published _ hnil | used _ hnil | cleared _ hnil => simp [hnil] at hflight
  | done hquiet => exact hbusy hquiet

/-- Code outside of the driver may access `b->data` now: the device has not
begun to move the bytes of a request for it. -/
def Untouched (s : DataState ι β) : DataEvent ι β → Prop
  | .load b _ | .store b _ _ => ∀ t c pc, s.virtio.task t = .running c pc →
      s.virtio.io.inFlight = [⟨0, .taken, c.id⟩] → b ≠ c.b
  | _ => True

omit [DecidableEq ι] in
/-- So it is while the disk does not own the block. -/
theorem DataRel.untouched (h : DataRel s a) {e : DataEvent ι β} (howned : DiskOwned s e) :
    Untouched s e := by
  cases e with
  | load b j => exact fun t c pc ht hflight => h.ne_buf howned ht hflight
  | store b j v => exact fun t c pc ht hflight => h.ne_buf howned ht hflight
  | virtio e | moveByte k j => trivial

omit [DecidableEq ι] in
/-- Code outside of the driver stores to a block. -/
theorem DataRel.store (h : DataRel s a) {b : β} {j : Fin BSIZE} {v : Byte}
    (hfree : Untouched s (.store b j v)) :
    DataRel { s with data := Function.update s.data b (Function.update (s.data b) j v) }
      (a.poke b j v) := by
  have hpoke : ∀ x : DiskStore ι β, Agree s x →
      Agree { s with data := Function.update s.data b (Function.update (s.data b) j v) }
        (x.poke b j v) := by
    rintro x ⟨hsectors, hdata⟩
    refine ⟨hsectors, ?_⟩
    show Function.update s.data b _ = Function.update x.bufs b _
    rw [hdata]
  refine ⟨h.inv, h.formatted, h.clients, fun hnone => hpoke a (h.settled hnone), ?_⟩
  intro t c pc ht hflight
  have hne : b ≠ (blockReq c).buf := hfree t c pc ht hflight
  rw [BlockStore.transferPart_poke a _ hne]
  exact hpoke _ (h.underWay t c pc ht hflight)

omit [DecidableEq ι] in
/-- Code outside of the driver loads what the store has. -/
theorem DataRel.load (h : DataRel s a) {b : β} {j : Fin BSIZE}
    (hfree : Untouched s (.load b j)) : s.data b = a.bufs b := by
  by_cases hnone : ∀ r ∈ s.virtio.io.inFlight, r.stage ≠ .taken
  · exact congrFun (h.settled hnone).2 b
  · push Not at hnone
    obtain ⟨r, hr, hstage⟩ := hnone
    have hne : s.virtio.io.inFlight ≠ [] := List.ne_nil_of_mem hr
    obtain ⟨t, c, pc, ht, -, -, -, hserved⟩ := h.inv.request fun hq => hne hq.inFlight
    obtain ⟨stage, hflight⟩ := hserved.inFlight hne
    rw [hflight, List.mem_singleton] at hr
    obtain rfl : stage = .taken := by
      rw [hr] at hstage
      exact hstage
    rw [(h.underWay t c pc ht hflight).2]
    exact BlockStore.transferPart_bufs_of_ne a _ (hfree t c pc ht hflight)

/-- A step of the driver, its device, its handler or the code around them
shows what a step of the store shows. -/
theorem DataRel.step (h : DataRel s a) {e : DataEvent ι β} {s' : DataState ι β}
    (hfree : Untouched s e) (hstep : DataStep s e s') :
    ∃ a' f, BlockStep? a f a' ∧ f.toList.filterMap BlockEvent.visible = seenData s e ∧
      DataRel s' a' := by
  cases e with
  -- A byte on its way shows nothing.
  | moveByte k j => exact ⟨a, none, rfl, rfl, h.moveByte hstep⟩
  | load b j =>
      -- The buffer is not with the device, so it holds what the store says.
      obtain ⟨-, rfl⟩ := hstep
      have hvalue : s'.data b j = a.bufs b j := congrFun (h.load hfree) j
      exact ⟨a, some (.load b j (s'.data b j)), ⟨hvalue, rfl⟩, rfl, h⟩
  | store b j v =>
      obtain ⟨-, rfl⟩ := hstep
      exact ⟨a.poke b j v, some (.store b j v), rfl, rfl, h.store hfree⟩
  | virtio e =>
      obtain ⟨hready, v, hv, rfl⟩ := hstep
      have hinv := h.inv.step hv
      cases e with
      | setBlockno b n =>
          obtain ⟨-, rfl⟩ := hv
          exact ⟨a, none, rfl, rfl,
            h.keep hinv rfl (fun t c pc ht _ => ⟨pc, ht⟩) h.formatted h.clients⟩
      | call t b write =>
          obtain ⟨-, ht, rfl⟩ := hv
          have hidle := h.clients t
          rw [ht] at hidle
          exact ⟨_, some (.call t ⟨b, write, _⟩), ⟨hidle, rfl⟩, rfl, h.call ht rfl⟩
      | task t =>
          obtain ⟨hisr, c, pc, ht, rfl⟩ := hv
          by_cases hunl : pc = .unlock
          · subst hunl
            obtain ⟨hans, hrel⟩ := h.unlock ht hinv
            refine ⟨_, some (.ret t), ⟨hans, rfl⟩, ?_, hrel⟩
            simp [seenData, ht, BlockEvent.visible]
          · -- Of the steps of a call only the return can be seen.
            have hseen : seenData s (.virtio (.task t)) = [] := by
              simp only [seenData, ht]
              cases pc <;> first | rfl | exact absurd rfl hunl
            refine ⟨a, none, rfl, hseen.symm, ?_⟩
            by_cases hacq : pc = .acquire
            · subst hacq
              exact h.acquire ht hinv
            · exact h.rwStep ht hacq hunl hisr hinv
      | isr =>
          obtain rfl := hv
          obtain ⟨htable, hops, hflight, hlast, havail⟩ := isrStep_device s.virtio.io
          exact ⟨a, none, rfl, rfl, h.keep_io hinv hflight hlast havail htable hops⟩
      | device m =>
          -- Of the moves of the device only the end of a transfer is a step of the
          -- store.
          obtain ⟨io, hdev, rfl⟩ := hv
          exact h.device hdev fun k hk => hready k (congrArg VirtioEvent.device hk)

/-- The driver, its device and its handler are simulated by the store. -/
def virtioDriver_simulation (sectors : BitVec 64 → Fin BSIZE → Byte) (data : β → Fin BSIZE → Byte) :
    WeakSimulation (dataSystem ι β) seenData DiskOwned (blockStore ι sectors data)
      BlockEvent.visible where
  rel := DataRel
  step s e s' a h howned hstep := by
    obtain ⟨a', f, hf, hseen, hrel⟩ := h.step (h.untouched howned) hstep
    exact ⟨a', f.toList, hf.run sectors data, hseen, hrel⟩

omit [DecidableEq ι] in
/-- After `virtio_disk_init` driver and store are the same. -/
theorem dataRel_init (h : VirtioInit s.virtio) :
    DataRel s ⟨s.sectors, s.data, fun _ => .idle⟩ := by
  have hinv := driverInv_init h
  obtain ⟨-, -, -, -, -, -, hflight, -, -, -, htask, -, -⟩ := h
  refine ⟨hinv, fun t c pc ht => ?_, fun t => ?_, fun _ => ⟨rfl, rfl⟩, fun t c pc ht => ?_⟩
  · simp [htask t] at ht
  · rw [htask t]
    rfl
  · simp [htask t] at ht

/-- `virtio_disk_rw`, `virtio_disk_isr` and the device for any number of
tasks and calls, in any interleaving, where no code touches `b->data` while
`b->disk` is `1`. What the tasks see is what they could see of an atomic
block store with the same contents: each call transfers its block once and as
a whole, at some time between its call and its return, and each load finds
what the store has there. With no request in the device, disk and blocks
have the contents of the store. -/
theorem virtioDriver_atomic (s₀ s : DataState ι β) (es : List (DataEvent ι β))
    (ws : List (BlockEvent ι β (BitVec 64) (Fin BSIZE) Byte)) (hinit : VirtioInit s₀.virtio)
    (hrun : (dataSystem ι β).SeenRun seenData s₀ es ws s)
    (howned : System.Run.Allowed (dataSystem ι β) DiskOwned s₀ es) :
    ∃ fs a, (blockStore ι s₀.sectors s₀.data).Run ⟨s₀.sectors, s₀.data, fun _ => .idle⟩ fs a ∧
      fs.filterMap BlockEvent.visible = ws ∧
      (s.virtio.io.inFlight = [] → s.sectors = a.sectors ∧ s.data = a.bufs) ∧
      ∀ t, s.virtio.task t = .outside → a.client t = .idle := by
  obtain ⟨a, fs, hstore, hfs, hrel⟩ :=
    (virtioDriver_simulation s₀.sectors s₀.data).run (dataRel_init hinit) hrun howned
  refine ⟨fs, a, hstore, hfs, fun hnil => hrel.settled (by simp [hnil]), fun t ht => ?_⟩
  have hclient := hrel.clients t
  rw [ht] at hclient
  exact hclient

end Relation

/-- The driver of `diskReset` with a disk and a block of zeros. -/
def dataReset : DataState Bool Unit := ⟨diskReset, fun _ _ => 0#8, fun _ _ => 0#8, fun _ _ => false⟩

/-- The first byte of a block. -/
def firstByte : Fin BSIZE := ⟨0, by decide⟩

/-- A store to the block, and then two calls of `virtio_disk_rw` on it. -/
def twoCallEvents : List (DataEvent Bool Unit) :=
  [.store () firstByte 7#8, .virtio (.call false () false), .virtio (.call true () true),
    .virtio (.task false)]

/-- The events respect who has the blocks. -/
theorem twoCallEvents_owned :
    System.Run.Allowed (dataSystem Bool Unit) DiskOwned dataReset twoCallEvents := by
  intro pre e post t hes hrun
  match pre, hes with
  | [], hes =>
      -- The store comes first, and no block is with the disk at the start.
      obtain ⟨rfl, -⟩ := List.cons.inj hes
      rw [hrun.eq_of_nil]
      show (0#32 : Word) ≠ 1#32
      decide
  | _ :: pre, hes =>
      have hrest : _ = pre ++ e :: post := (List.cons.inj hes).2
      have hmem : e ∈ pre ++ e :: post := by simp
      rw [← hrest] at hmem
      simp only [List.mem_cons, List.not_mem_nil, or_false] at hmem
      rcases hmem with rfl | rfl | rfl <;> trivial

/-- The run of the example and what is seen of it. -/
theorem twoCallEvents_run :
    ∃ s, (dataSystem Bool Unit).SeenRun seenData dataReset twoCallEvents
        [.store () firstByte 7#8, .call false ⟨(), false, 1#64⟩, .call true ⟨(), true, 1#64⟩] s ∧
      s.virtio.io.inFlight = [] ∧ s.data () firstByte = 7#8 := by
  have hstart : (dataSystem Bool Unit).SeenRun seenData dataReset [] [] dataReset := .nil dataReset
  have hstore := hstart.snoc (e := DataEvent.store () firstByte 7#8) ⟨rfl, rfl⟩
  have hfirst := hstore.snoc (e := DataEvent.virtio (.call false () false))
    ⟨by simp, _, ⟨rfl, rfl, rfl⟩, rfl⟩
  have hsecond := hfirst.snoc (e := DataEvent.virtio (.call true () true))
    ⟨by simp, _, ⟨rfl, rfl, rfl⟩, rfl⟩
  have hlock := hsecond.snoc (e := DataEvent.virtio (.task false))
    ⟨by simp, _, ⟨rfl, ⟨(), false, 1#64, 0⟩, .acquire, rfl, rfl⟩, rfl⟩
  exact ⟨_, hlock, rfl, rfl⟩

/-- The main result with two calls on one block. -/
theorem twoCallEvents_atomic :
    ∃ fs a, (blockStore Bool dataReset.sectors dataReset.data).Run
        ⟨dataReset.sectors, dataReset.data, fun _ => .idle⟩ fs a ∧
      fs.filterMap BlockEvent.visible =
        [.store () firstByte 7#8, .call false ⟨(), false, 1#64⟩, .call true ⟨(), true, 1#64⟩] ∧
      a.bufs () firstByte = 7#8 := by
  obtain ⟨s, hrun, hnil, hbyte⟩ := twoCallEvents_run
  have hinit : VirtioInit dataReset.virtio :=
    ⟨fun _ _ => rfl, fun _ => rfl, rfl, rfl, rfl, rfl, rfl, rfl, fun _ => rfl, rfl,
      fun _ => rfl, rfl, rfl⟩
  obtain ⟨fs, a, hstore, hseen, hagree, -⟩ :=
    virtioDriver_atomic dataReset s twoCallEvents _ hinit hrun twoCallEvents_owned
  refine ⟨fs, a, hstore, hseen, ?_⟩
  rw [← (hagree hnil).2]
  exact hbyte

end MiniRiscvOs.Proofs
