import MiniRiscvOs.Kernel.VirtioSetup
import MiniRiscvOs.Proofs.StringMove
import MiniRiscvOs.Proofs.Virtio

/-!
# `MiniRiscvOs.Proofs.VirtioSetup`: what `virtio_disk_init` leaves

The device may answer anything. The conversation is then one of four: it
breaks off at one of the first registers, or at the size of the queue, with
the memory as before and no queue set up, or it goes through
(`virtioDiskInit_cases`).

When it goes through, driver and device have the rings at the same addresses,
in `disk.pages` and apart from each other, and what the driver finds there is
the state that `VirtioInit` asks for (`virtioDiskInit_ready`). A device that
takes all written values in order is `QueueRegs`, and what it has been told
before does not matter, since the driver resets it first.
-/

set_option autoImplicit false

namespace MiniRiscvOs.Proofs

open MiniRiscvOs.Lib
open MiniRiscvOs.Kernel

/-! ### `memset` -/

/-- The loop of `memset` sets the bytes of the range. -/
theorem memsetLoop_eq (dst : Addr) (c : Byte) (k : Nat) :
    ∀ (i : Word) (m : Mem), k < 2 ^ 32 →
      memsetLoop dst c k i m = mapRange (fun _ => c) m (dst + i) k := by
  induction k with
  | zero =>
      intro i m _
      rw [mapRange_zero]
      rfl
  | succ k ih =>
      intro i m hk
      have hnext : dst + (i + 1#32) = dst + i + 1#32 := by rw [BitVec.add_assoc]
      rw [memsetLoop, ih _ _ (by omega), hnext]
      exact mapRange_store8 (fun _ => c) m (dst + i) (by omega)

/-- `memset` fills its range, and nothing else. -/
theorem memset_eq (m : Mem) (dst : Addr) (c n : Word) :
    memset m dst c n = (mapRange (fun _ => c.setWidth 8) m dst n.toNat, dst) := by
  have hloop := memsetLoop_eq dst (c.setWidth 8) n.toNat 0#32 m n.isLt
  rw [BitVec.add_zero] at hloop
  rw [memset, hloop]

/-! ### The conversation -/

/-- The first reads, of a device that is the block device. -/
def greeting : List MmioAccess := diskIdentity.map fun rv => .read rv.1 rv.2

/-- The negotiation with a device that offers `features`. -/
def negotiation (features : Word) : List MmioAccess :=
  [.write .status 0#32, .write .status 1#32, .write .status 3#32,
    .read .deviceFeatures features,
    .write .driverFeatures (clearBits features clearedFeatures),
    .write .status 11#32, .write .status 15#32, .write .guestPageSize virtioPgsize]

/-- The selection of queue 0, of a device with `max` descriptors for it. -/
def queueQuery (max : Word) : List MmioAccess := [.write .queueSel 0#32, .read .queueNumMax max]

/-- What the device is told of the queue. -/
def queueSettings (pages : Addr) : List MmioAccess :=
  [.write .queueNum 8#32, .write .queuePfn (pages / virtioPgsize),
    .write .queueAlign virtioPgsize, .write .queueReady 1#32, .write .queueDescLow pages,
    .write .queueAvailLow (pages + 128#32), .write .queueUsedLow (pages + virtioPgsize)]

/-- The accesses come one after the other. -/
theorem said_said (s : SetupState) (as bs : List MmioAccess) :
    (s.said as).said bs = s.said (as ++ bs) := by
  simp [SetupState.said]

/-- The tests of the first registers. Each of them is read until one has
another value. -/
theorem anyDiffers_cases (dev : MmioDevice) (rvs : List (VirtioReg × Word)) (s : SetupState) :
    anyDiffers dev rvs s = (false, s.said (rvs.map fun rv => .read rv.1 rv.2)) ∨
    ∃ pre r v w post, rvs = pre ++ (r, v) :: post ∧ w ≠ v ∧
      anyDiffers dev rvs s =
        (true, s.said ((pre.map fun rv => .read rv.1 rv.2) ++ [.read r w])) := by
  induction rvs generalizing s with
  | nil =>
      left
      simp [anyDiffers, SetupState.said]
  | cons rv rvs ih =>
      obtain ⟨r, v⟩ := rv
      by_cases hw : dev s.log r = v
      · have hstep : anyDiffers dev ((r, v) :: rvs) s
            = anyDiffers dev rvs (s.said [.read r v]) := by
          rw [anyDiffers, readReg]
          simp [hw]
        rw [hstep]
        -- The rest of the list is tested after one more read.
        rcases ih (s.said [.read r v]) with heq | ⟨pre, r', v', w, post, rfl, hne, heq⟩
        · left
          rw [heq, said_said]
          rfl
        · refine Or.inr ⟨(r, v) :: pre, r', v', w, post, rfl, hne, ?_⟩
          rw [heq, said_said]
          rfl
      · refine Or.inr ⟨[], r, v, dev s.log r, rvs, rfl, hw, ?_⟩
        rw [anyDiffers, readReg]
        simp [hw]

/-- The reset and the negotiation make these accesses, whatever the device
offers. -/
theorem negotiate_eq (dev : MmioDevice) (s : SetupState) :
    ∃ features, negotiate dev s = s.said (negotiation features) := by
  refine ⟨dev (s.log ++ [.write .status 0#32, .write .status 1#32, .write .status 3#32])
    .deviceFeatures, ?_⟩
  simp [negotiate, negotiation, readReg, writeReg, SetupState.said,
    configSAcknowledge, configSDriver, configSFeaturesOk, configSDriverOk]

/-- The memory after the initialisation. -/
def zeroedPages (m : Mem) (pages : Addr) : Mem := mapRange (fun _ => 0#8) m pages 8192

/-- The set-up of the queue makes these accesses and clears the pages. -/
theorem setupQueue_eq (pages : Addr) (s : SetupState) :
    setupQueue pages s =
      { (s.said (queueSettings pages)) with
        mem := zeroedPages s.mem pages
        desc := pages
        avail := pages + 128#32
        used := pages + virtioPgsize
        free := (List.range NUM).foldl (fun free i => Function.update free i 1#8) s.free
        output := s.output ++ ["Disk init work is success!\n"] } := by
  simp [setupQueue, queueSettings, writeReg, memset_eq, zeroedPages, SetupState.said, NUM,
    virtioPgsize]

/-- Behind the first registers the size of the queue decides. -/
theorem virtioDiskInit_found {dev : MmioDevice} (pages : Addr) {s₀ s₁ : SetupState}
    (h : anyDiffers dev diskIdentity s₀.lockInit = (false, s₁)) :
    ∃ max, virtioDiskInit dev pages s₀ =
      if max = 0#32 then
        .panic "virtio disk has no queue 0\n" ((negotiate dev s₁).said (queueQuery max))
      else if max < 8#32 then
        .panic "virtio disk max queue too short\n" ((negotiate dev s₁).said (queueQuery max))
      else .ret () (setupQueue pages ((negotiate dev s₁).said (queueQuery max))) := by
  have hquery : ∀ s : SetupState, ∃ max,
      readReg dev .queueNumMax (writeReg .queueSel 0#32 s) = (max, s.said (queueQuery max)) := by
    intro s
    refine ⟨dev (s.said [.write .queueSel 0#32]).log .queueNumMax, ?_⟩
    rw [readReg, writeReg, said_said]
    rfl
  obtain ⟨max, hmax⟩ := hquery (negotiate dev s₁)
  refine ⟨max, ?_⟩
  unfold virtioDiskInit
  simp only [h, hmax]
  rfl

/-- The conversation breaks off at one of the first registers, or at the
size of the queue, or it goes through. -/
theorem virtioDiskInit_cases (dev : MmioDevice) (pages : Addr) (s₀ : SetupState) :
    (∃ pre r v w post, diskIdentity = pre ++ (r, v) :: post ∧ w ≠ v ∧
      virtioDiskInit dev pages s₀ = .panic "could not find virtio disk"
        (s₀.lockInit.said
          ((pre.map fun rv => .read rv.1 rv.2) ++ [.read r w]))) ∨
    ∃ features max,
      (max < 8#32 ∧ virtioDiskInit dev pages s₀ =
        .panic (if max = 0#32 then "virtio disk has no queue 0\n"
            else "virtio disk max queue too short\n")
          (s₀.lockInit.said
            (greeting ++ negotiation features ++ queueQuery max))) ∨
      (8#32 ≤ max ∧ virtioDiskInit dev pages s₀ =
        .ret () (setupQueue pages (s₀.lockInit.said
          (greeting ++ negotiation features ++ queueQuery max)))) := by
  rcases anyDiffers_cases dev diskIdentity s₀.lockInit with
    heq | ⟨pre, r, v, w, post, hpre, hne, heq⟩
  · right
    change _ = (false, s₀.lockInit.said greeting) at heq
    obtain ⟨features, hneg⟩ := negotiate_eq dev (s₀.lockInit.said greeting)
    obtain ⟨max, hrun⟩ := virtioDiskInit_found pages heq
    rw [hneg, said_said, said_said] at hrun
    refine ⟨features, max, ?_⟩
    -- The tests of `max`, in the order of the code.
    by_cases hzero : max = 0#32
    · left
      rw [hrun, if_pos hzero, if_pos hzero, hzero]
      exact ⟨by decide, rfl⟩
    · by_cases hlt : max < 8#32
      · left
        rw [hrun, if_neg hzero, if_pos hlt, if_neg hzero]
        exact ⟨hlt, rfl⟩
      · right
        rw [hrun, if_neg hzero, if_neg hlt]
        exact ⟨BitVec.not_lt.mp hlt, rfl⟩
  · left
    refine ⟨pre, r, v, w, post, hpre, hne, ?_⟩
    unfold virtioDiskInit
    rw [heq]

/-! ### What both sides have after it -/

/-- The bits that are cleared, and no others. -/
theorem getLsbD_clearBits (features : Word) (bits : List Nat) (i : Nat) (hi : i < 32) :
    (clearBits features bits).getLsbD i = (features.getLsbD i && decide (i ∉ bits)) := by
  induction bits generalizing features with
  | nil => simp [clearBits]
  | cons b bits ih =>
      have hstep : clearBits features (b :: bits) = clearBits (features &&& ~~~(1#32 <<< b)) bits :=
        rfl
      have hone : (1#32 <<< b).getLsbD i = decide (i = b) := by
        rw [BitVec.getLsbD_shiftLeft, BitVec.getLsbD_one]
        rw [Bool.eq_iff_iff]
        simp [hi]
        omega
      rw [hstep, ih, BitVec.getLsbD_and, BitVec.getLsbD_not, hone]
      simp [hi, Bool.and_assoc]

/-- What the device has been told at the end. What it had been told before
is gone with the reset. -/
theorem take_conversation (q : QueueRegs) (features max : Word) (pages : Addr) :
    (greeting ++ negotiation features ++ queueQuery max ++ queueSettings pages).foldl
        QueueRegs.take q =
      { status := 15#32
        features := clearBits features clearedFeatures
        pageSize := virtioPgsize
        sel := 0#32
        num := 8#32
        align := virtioPgsize
        pfn := pages / virtioPgsize } := by
  rfl

/-- A page-aligned address is its page number times the size of a page. -/
theorem pageNumber_mul {pages : Addr} (halign : pages.toNat % 4096 = 0) :
    (pages / virtioPgsize).toNat * virtioPgsize.toNat = pages.toNat := by
  rw [BitVec.toNat_udiv]
  show pages.toNat / 4096 * 4096 = pages.toNat
  omega

/-- Driver and device agree on the queue. -/
structure QueueAgreed (s : SetupState) (q : QueueRegs) : Prop where
  num : q.num = BitVec.ofNat 32 NUM
  desc : q.descAddr = s.desc.toNat
  avail : q.availAddr = s.avail.toNat
  used : q.usedAddr = s.used.toNat

/-- Descriptors, available ring and used ring, of `NUM` entries each, follow
each other in two pages of zeros. The memory outside of the pages is as in
`m`. -/
structure RingsLaidOut (pages : Addr) (m : Mem) (s : SetupState) : Prop where
  desc : s.desc = pages
  avail : s.desc.toNat + 16 * NUM ≤ s.avail.toNat
  used : s.avail.toNat + (6 + 2 * NUM) ≤ s.used.toNat
  last : s.used.toNat + (6 + 8 * NUM) ≤ pages.toNat + 8192
  zero : ∀ x, InRange pages 8192 x → s.mem x = 0#8
  outside : ∀ x, ¬ InRange pages 8192 x → s.mem x = m x

/-- The state at the return of `virtio_disk_init`. -/
def setupDone (pages : Addr) (s₀ : SetupState) (features max : Word) : SetupState :=
  setupQueue pages (s₀.lockInit.said (greeting ++ negotiation features ++ queueQuery max))

/-- The accesses of the whole function, in order. -/
theorem setupDone_log (pages : Addr) (s₀ : SetupState) (features max : Word) :
    (setupDone pages s₀ features max).log = s₀.log ++
      (greeting ++ negotiation features ++ queueQuery max ++ queueSettings pages) := by
  rw [setupDone, setupQueue_eq]
  simp [SetupState.said, SetupState.lockInit]

/-- Driver and device agree on the queue. -/
theorem setupDone_agreed {pages : Addr} (s₀ : SetupState) (features max : Word)
    (halign : pages.toNat % 4096 = 0) (hfit : pages.toNat + 8192 ≤ 2 ^ 32) :
    QueueAgreed (setupDone pages s₀ features max)
      ((setupDone pages s₀ features max).log.foldl QueueRegs.take queueReset) := by
  have hpfn := pageNumber_mul halign
  have havail : (pages + 128#32).toNat = pages.toNat + 128 := by bv_omega
  have hused : (pages + virtioPgsize).toNat = pages.toNat + 4096 := by
    unfold virtioPgsize
    bv_omega
  rw [setupDone_log, List.foldl_append, take_conversation]
  rw [setupDone, setupQueue_eq]
  refine ⟨rfl, hpfn, ?_, ?_⟩
  · show (pages / virtioPgsize).toNat * virtioPgsize.toNat + 16 * 8 = (pages + 128#32).toNat
    rw [hpfn, havail]
  · show (pages / virtioPgsize).toNat * virtioPgsize.toNat + alignUp (16 * 8 + 2 * (3 + 8)) 4096 =
      (pages + virtioPgsize).toNat
    rw [hpfn, hused]
    rfl

/-- The rings lie in the cleared pages. -/
theorem setupDone_rings {pages : Addr} (s₀ : SetupState) (features max : Word)
    (hfit : pages.toNat + 8192 ≤ 2 ^ 32) :
    RingsLaidOut pages s₀.mem (setupDone pages s₀ features max) := by
  have havail : (pages + 128#32).toNat = pages.toNat + 128 := by bv_omega
  have hused : (pages + virtioPgsize).toNat = pages.toNat + 4096 := by
    unfold virtioPgsize
    bv_omega
  rw [setupDone, setupQueue_eq]
  refine ⟨rfl, ?_, ?_, ?_, fun x hx => if_pos hx, fun x hx => if_neg hx⟩
  · exact Nat.le_of_eq havail.symm
  · show (pages + 128#32).toNat + 22 ≤ (pages + virtioPgsize).toNat
    rw [havail, hused]
    omega
  · show (pages + virtioPgsize).toNat + 70 ≤ pages.toNat + 8192
    rw [hused]
    omega

/-- All descriptors are free. -/
theorem setupDone_free (pages : Addr) (s₀ : SetupState) (features max : Word) {i : Nat}
    (hi : i < NUM) : (setupDone pages s₀ features max).free i = 1#8 := by
  -- The loop over `free[]`, from any contents: induction on the indices left.
  have hfill : ∀ (is : List Nat) (free : Nat → Byte), (i ∈ is ∨ free i = 1#8) →
      is.foldl (fun free i => Function.update free i 1#8) free i = 1#8 := by
    intro is
    induction is with
    | nil =>
        intro free h
        exact h.resolve_left (by simp)
    | cons j is ih =>
        intro free h
        refine ih (Function.update free j 1#8) ?_
        by_cases hij : i = j
        · right
          rw [hij, Function.update_self]
        · rcases h with hmem | hone
          · exact Or.inl ((List.mem_cons.mp hmem).resolve_left hij)
          · right
            rw [Function.update_of_ne hij]
            exact hone
  rw [setupDone, setupQueue_eq]
  exact hfill _ _ (Or.inl (List.mem_range.mpr hi))

/-- Two zero bytes make a zero. -/
theorem load16_zero {m : Mem} {a : Addr} (h : m a = 0#8) (h' : m (a + 1#32) = 0#8) :
    load16 m a = 0#16 := by
  rw [load16, h, h']
  rfl

/-- What the driver's memory has to hold for `VirtioInit`. -/
theorem start_init {ι β : Type} [DecidableEq ι] [DecidableEq β] {s : SetupState}
    (ptr : BitVec 64 → Ptr β) {d : Disk β} (blockno : β → Word)
    (hfree : ∀ i < NUM, s.free i = 1#8) (hlock : s.vdiskLock = 0#32)
    (havail : load16 s.mem (s.avail + 2#32) = 0#16) (hring : load16 s.mem (s.used + 2#32) = 0#16)
    (hused : d.usedIdx = 0#16) (hinfo : ∀ i, d.infoB i = none) :
    VirtioInit (s.start ι ptr d blockno) := by
  refine ⟨fun i hi => ?_, hinfo, havail, hring, hused, rfl, rfl, rfl, fun _ => rfl, hlock,
    fun _ => rfl, rfl, rfl⟩
  show decide (s.free i ≠ 0#8) = true
  rw [hfree i hi]
  decide

/-- The driver starts from what `VirtioInit` asks for. -/
theorem setupDone_start {ι β : Type} [DecidableEq ι] [DecidableEq β] {pages : Addr}
    (s₀ : SetupState) (features max : Word) (hfit : pages.toNat + 8192 ≤ 2 ^ 32)
    (ptr : BitVec 64 → Ptr β) {d : Disk β} (blockno : β → Word) (hused : d.usedIdx = 0#16)
    (hinfo : ∀ i, d.infoB i = none) :
    VirtioInit ((setupDone pages s₀ features max).start ι ptr d blockno) := by
  have hrings := setupDone_rings s₀ features max hfit
  have hzero : ∀ k : Nat, k < 8192 →
      (setupDone pages s₀ features max).mem (pages + BitVec.ofNat 32 k) = 0#8 := by
    intro k hk
    exact hrings.zero _ ((inRange_add_ofNat pages (by omega)).mpr hk)
  -- `idx` is the second half word of a ring.
  have hidx : ∀ k : Nat, k + 4 ≤ 8192 →
      load16 (setupDone pages s₀ features max).mem (pages + BitVec.ofNat 32 k + 2#32) = 0#16 := by
    intro k hk
    rw [add_ofNat_add pages k 2]
    refine load16_zero (hzero (k + 2) (by omega)) ?_
    rw [add_ofNat_add pages (k + 2) 1]
    exact hzero (k + 3) (by omega)
  have hlock : (setupDone pages s₀ features max).vdiskLock = 0#32 := by
    rw [setupDone, setupQueue_eq]
    rfl
  have havail : (setupDone pages s₀ features max).avail = pages + BitVec.ofNat 32 128 := by
    rw [setupDone, setupQueue_eq]
  have hring : (setupDone pages s₀ features max).used = pages + BitVec.ofNat 32 4096 := by
    rw [setupDone, setupQueue_eq]
    rfl
  refine start_init ptr blockno (fun i hi => setupDone_free pages s₀ features max hi) hlock ?_ ?_
    hused hinfo
  · rw [havail]
    exact hidx 128 (by omega)
  · rw [hring]
    exact hidx 4096 (by omega)

/-- No word about the queue: its size, its place and that it is ready. -/
def NoQueue (as : List MmioAccess) : Prop :=
  ∀ v, .write .queueNum v ∉ as ∧ .write .queuePfn v ∉ as ∧ .write .queueReady v ∉ as

/-- Why `virtio_disk_init` panics: a register of another device, no queue 0,
or too few descriptors in it. -/
def PanicReason (msg : String) (as : List MmioAccess) : Prop :=
  (msg = "could not find virtio disk" ∧
    ∃ r v w, (r, v) ∈ diskIdentity ∧ w ≠ v ∧ .read r w ∈ as) ∨
  (msg = "virtio disk has no queue 0\n" ∧ .read .queueNumMax 0#32 ∈ as) ∨
  (msg = "virtio disk max queue too short\n" ∧
    ∃ max, max ≠ 0#32 ∧ max < BitVec.ofNat 32 NUM ∧ .read .queueNumMax max ∈ as)

/-- `virtio_disk_init` against any device, with `disk.pages` on a page
boundary. Either it panics with the message for what it has read, and then it
has told the device nothing of the queue and left the memory and
`disk.free[]` as they were. Or it returns, and then

* the device has passed the test of its first registers and has at least
  `NUM` descriptors, it is in status `DRIVER_OK`, and its features are those
  it has offered without the seven that the driver clears;
* device and driver have the descriptors and both rings at the same
  addresses, apart from each other and filled with zeros;
* the driver starts from what `VirtioInit` asks for. `d` has the fields of
  `struct disk` that it leaves alone, which are zero before it. -/
theorem virtioDiskInit_ready {ι β : Type} [DecidableEq ι] [DecidableEq β] (dev : MmioDevice)
    (pages : Addr) (s₀ : SetupState) (halign : pages.toNat % 4096 = 0)
    (hfit : pages.toNat + 8192 ≤ 2 ^ 32) (ptr : BitVec 64 → Ptr β) (d : Disk β)
    (blockno : β → Word) (hused : d.usedIdx = 0#16) (hinfo : ∀ i, d.infoB i = none) :
    (∃ msg s as, virtioDiskInit dev pages s₀ = .panic msg s ∧ s.log = s₀.log ++ as ∧
      PanicReason msg as ∧ NoQueue as ∧ s.mem = s₀.mem ∧ s.free = s₀.free) ∨
    ∃ s features max, virtioDiskInit dev pages s₀ = .ret () s ∧
      greeting ++ negotiation features ++ queueQuery max ++ queueSettings pages
        = s.log.drop s₀.log.length ∧
      BitVec.ofNat 32 NUM ≤ max ∧
      (let q := s.log.foldl QueueRegs.take queueReset
       q.status = 15#32 ∧
       (∀ i < 32, q.features.getLsbD i = (features.getLsbD i && decide (i ∉ clearedFeatures))) ∧
       QueueAgreed s q) ∧
      RingsLaidOut pages s₀.mem s ∧ VirtioInit (s.start ι ptr d blockno) := by
  rcases virtioDiskInit_cases dev pages s₀ with
    ⟨pre, r, v, w, post, hpre, hne, heq⟩ | ⟨features, max, ⟨hlt, heq⟩ | ⟨hle, heq⟩⟩
  · -- The panic at the identity of the device.
    left
    refine ⟨_, _, _, heq, rfl, Or.inl ⟨rfl, r, v, w, ?_, hne, by simp⟩, fun v => ?_, rfl, rfl⟩
    · rw [hpre]
      simp
    · simp
  · -- The panic at the size of the queue.
    left
    refine ⟨_, _, _, heq, rfl, Or.inr ?_, fun v => ?_, rfl, rfl⟩
    · by_cases hzero : max = 0#32
      · left
        exact ⟨if_pos hzero, by simp [queueQuery, hzero]⟩
      · right
        exact ⟨if_neg hzero, max, hzero, hlt, by simp [queueQuery]⟩
    · simp [greeting, diskIdentity, negotiation, queueQuery]
  · right
    change _ = Outcome.ret () (setupDone pages s₀ features max) at heq
    refine ⟨setupDone pages s₀ features max, features, max, heq, ?_, hle,
      ⟨?_, fun i hi => ?_, setupDone_agreed s₀ features max halign hfit⟩,
      setupDone_rings s₀ features max hfit,
      setupDone_start s₀ features max hfit ptr blockno hused hinfo⟩
    · -- The status and the features are read off the conversation.
      rw [setupDone_log, List.drop_left]
    · rw [setupDone_log, List.foldl_append, take_conversation]
    · rw [setupDone_log, List.foldl_append, take_conversation]
      exact getLsbD_clearBits features clearedFeatures i hi

/-- A device with eight descriptors that offers all features. -/
def sampleDevice : MmioDevice := fun _ r =>
  match r with
  | .magicValue => 0x74726976#32
  | .version => 1#32
  | .deviceId => 2#32
  | .vendorId => 0x554d4551#32
  | .deviceFeatures => 0xffffffff#32
  | .queueNumMax => 8#32
  | _ => 0#32

/-- The kernel before `virtio_disk_init`. -/
def beforeSetup : SetupState :=
  { mem := fun _ => 0xaa#8
    desc := 0#32
    avail := 0#32
    used := 0#32
    free := fun _ => 0#8
    vdiskLock := 7#32
    log := []
    output := [] }

/-- The main result with a device that the driver accepts. -/
theorem sampleDevice_ready :
    ∃ s, virtioDiskInit sampleDevice 0x80009000#32 beforeSetup = .ret () s ∧
      s.desc = 0x80009000#32 ∧
      VirtioInit (s.start Bool (fun _ => .null) diskReset.io.disk diskReset.blockno) := by
  have haccept : ∃ s, virtioDiskInit sampleDevice 0x80009000#32 beforeSetup = .ret () s :=
    ⟨_, rfl⟩
  obtain ⟨s, hret⟩ := haccept
  rcases virtioDiskInit_ready (ι := Bool) sampleDevice 0x80009000#32 beforeSetup (by decide)
      (by decide) (fun _ => .null) diskReset.io.disk diskReset.blockno rfl (fun _ => rfl) with
    ⟨msg, s', as, hpanic, -⟩ | ⟨s', features, max, hret', -, -, -, hrings, hinit⟩
  · rw [hret] at hpanic
    cases hpanic
  · exact ⟨s', hret', hrings.desc, hinit⟩

end MiniRiscvOs.Proofs
