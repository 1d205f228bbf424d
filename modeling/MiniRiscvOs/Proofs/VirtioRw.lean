import MiniRiscvOs.Kernel.VirtioRw
import MiniRiscvOs.Proofs.Virtio
import MiniRiscvOs.Proofs.VirtioIsr

/-!
# `MiniRiscvOs.Proofs.VirtioRw`: the device never sees half a request

`virtio_disk_rw` spreads a request over the descriptors, `disk.ops`,
`disk.info` and the available ring, one assignment at a time, and other
chains are outstanding meanwhile. `rwCall_chains` says what it gets right: the
chain is complete before the increment of `avail->idx` shows it to the device,
and no step on the way changes what an earlier entry decodes to. The address
of the header is the exception. It is a pointer without the cast to `uint32`
that the other two addresses have, so the compiler widens it by its sign, and
by `rw_publishes_iff` the device reads the request only where `disk.ops` lies
below `0x80000000`. The linker script puts it above.

* `Outside` is the frame of an assignment: it stays within the descriptors
  that the call has just taken. An earlier chain has none of these, since
  they were free (`LiveEntry.frame`).
* `rwMemory` is the memory at each program point as a function of the
  memory at the start, so `RwInv` carries no more than that the two agree.
-/

set_option autoImplicit false

namespace MiniRiscvOs.Proofs

open MiniRiscvOs.Lib
open MiniRiscvOs.Kernel

variable {α β : Type}

/-! ### What an entry decodes to -/

/-- A walk starts with its head. -/
theorem chainWalk_head {num : Nat} {t : DescTable α} {fuel i : Nat} {ds : List Nat}
    (h : chainWalk num t fuel i = some ds) : ∃ rest, ds = i :: rest := by
  cases fuel with
  | zero => simp [chainWalk] at h
  | succ fuel =>
      rw [chainWalk] at h
      split at h
      · simp at h
      · split at h
        · obtain ⟨rest, -, rfl⟩ := Option.map_eq_some_iff.mp h
          exact ⟨rest, rfl⟩
        · obtain rfl := Option.some.inj h
          exact ⟨[], rfl⟩

/-- A walk passes its start. -/
theorem mem_chainWalk {num : Nat} {t : DescTable α} {fuel i : Nat} {ds : List Nat}
    (h : chainWalk num t fuel i = some ds) : i ∈ ds := by
  obtain ⟨rest, rfl⟩ := chainWalk_head h
  exact List.mem_cons_self

/-- A walk reads the descriptors it visits and no others. Induction on the
length that is allowed. -/
theorem chainWalk_congr {num : Nat} {t u : DescTable α} (fuel : Nat) :
    ∀ {i : Nat} {ds : List Nat}, chainWalk num t fuel i = some ds →
      (∀ j ∈ ds, u.desc j = t.desc j) → chainWalk num u fuel i = some ds := by
  induction fuel with
  | zero =>
      intro i ds h
      simp [chainWalk] at h
  | succ fuel ih =>
      intro i ds h hsame
      -- The first descriptor is the same, so the walk branches the same way.
      have hi := hsame i (mem_chainWalk h)
      rw [chainWalk] at h ⊢
      rw [hi]
      split at h
      · simp at h
      · rename_i hlt
        rw [if_neg hlt]
        split at h
        · rename_i hnext
          obtain ⟨rest, hrest, rfl⟩ := Option.map_eq_some_iff.mp h
          have hrest' := ih hrest fun j hj => hsame j (List.mem_cons_of_mem i hj)
          rw [if_pos hnext, hrest']
          rfl
        · rename_i hlast
          rw [if_neg hlast]
          exact h

/-- So the device decodes the same request where these descriptors and the
header agree. -/
theorem decodeReq_congr {d d' : Disk β} {header : Ptr β → Option Nat} {head : Nat}
    {ds : List Nat} (hwalk : chainWalk NUM d.table NUM head = some ds)
    (hdesc : ∀ j ∈ ds, d'.table.desc j = d.table.desc j)
    (hops : ∀ i, header (d.table.desc head).addr = some i → d'.ops i = d.ops i) :
    decodeReq header d' head = decodeReq header d head := by
  have hwalk' := chainWalk_congr NUM hwalk hdesc
  obtain ⟨rest, rfl⟩ := chainWalk_head hwalk
  unfold decodeReq
  rw [hwalk', hwalk]
  match rest with
  | [] => rfl
  | [_] => rfl
  | m :: s :: t :: more => rfl
  | [m, s] =>
      -- A request has three descriptors: header, data and status.
      have hh := hdesc head (by simp)
      have hm := hdesc m (by simp)
      have hs := hdesc s (by simp)
      simp only [hh, hm, hs]
      cases haddr : header (d.table.desc head).addr with
      | some i => simp only [hops i haddr]
      | none => rfl

/-- An entry of an earlier call: its chain and its header are in use. -/
structure LiveEntry (place : DiskPlace β) (d : Disk β) (head : Nat) : Prop where
  chain : ∃ ds, chainWalk NUM d.table NUM head = some ds ∧ ∀ i ∈ ds, d.table.free i = false
  header : ∀ i, place.opsAt (d.table.desc head).addr = some i → d.table.free i = false

/-! ### The address of the header -/

/-- The array `disk.ops` does not wrap. -/
theorem toNat_addr_ops (place : DiskPlace β) {i : Nat} (hi : i < NUM) :
    (place.addr (.ops i)).toNat = place.disk.toNat + (8280 + 16 * i) := by
  have hfits := place.fits
  unfold NUM at hi
  exact toNat_add_ofNat (by omega)

/-- `disk` starts a page, so all of `disk.ops` is on one side of
`0x80000000`. -/
theorem addr_ops_lt_iff (place : DiskPlace β) {i : Nat} (hi : i < NUM) :
    (place.addr (.ops i)).toNat < 2 ^ 31 ↔ (place.addr (.ops 0)).toNat < 2 ^ 31 := by
  have haligned := place.aligned
  rw [toNat_addr_ops place hi, toNat_addr_ops place (by decide : 0 < NUM)]
  unfold NUM at hi
  omega

/-- The address that `virtio_disk_rw` stores for the header leads the device
to it below `0x80000000`, and nowhere in `disk.ops` from there on. -/
theorem opsAt_signed (place : DiskPlace β) {i : Nat} (hi : i < NUM) :
    place.opsAt (.signed (.ops i)) =
      if (place.addr (.ops 0)).toNat < 2 ^ 31 then some i else none := by
  -- The two ways to widen an address agree below `0x80000000` only.
  have hat : ∀ j < NUM, (place.addr (.ops i)).signExtend 64 = (place.addr (.ops j)).setWidth 64 ↔
      i = j ∧ (place.addr (.ops 0)).toNat < 2 ^ 31 := by
    intro j hj
    have hinj : place.addr (.ops i) = place.addr (.ops j) ↔ i = j := by
      constructor
      · intro h
        have hnat := congrArg BitVec.toNat h
        rw [toNat_addr_ops place hi, toNat_addr_ops place hj] at hnat
        omega
      · rintro rfl
        rfl
    rw [signExtend_eq_setWidth_iff, hinj, addr_ops_lt_iff place hi]
  show (List.range NUM).find? (fun j =>
    decide ((place.addr (.ops i)).signExtend 64 = (place.addr (.ops j)).setWidth 64)) = _
  by_cases hlow : (place.addr (.ops 0)).toNat < 2 ^ 31
  · rw [if_pos hlow, List.find?_range_eq_some]
    refine ⟨decide_eq_true ((hat i hi).mpr ⟨rfl, hlow⟩), List.mem_range.mpr hi, fun j hj => ?_⟩
    have hne := mt (hat j (hj.trans hi)).mp fun h => absurd h.1 (by omega)
    rw [decide_eq_false hne]
    rfl
  · rw [if_neg hlow, List.find?_eq_none]
    intro j hj
    have hne := mt (hat j (List.mem_range.mp hj)).mp fun h => hlow h.2
    rw [decide_eq_false hne]
    simp

/-! ### What the device and the handler leave alone -/

/-- A chain that ends with a status byte of `disk.info`. -/
def HasStatus (d : Disk β) (head : Nat) : Prop :=
  ∃ q i, statusDesc d head = some q ∧ q.addr = .unsigned (.status i)

/-- The device writes no request, as long as the chains it has taken end with
a status byte. -/
theorem sameRequests_devStep {io io' : DiskIo β} {m : DevMove} (hstep : DevStep io m io')
    (hreq : ∀ r ∈ io.inFlight, HasStatus io.disk r.head) :
    SameRequests io.disk io'.disk := by
  cases m with
  | take =>
      obtain ⟨-, rfl⟩ := hstep
      exact .refl _
  | transfer k =>
      obtain ⟨r, -, -, rfl⟩ := hstep
      exact .refl _
  | writeStatus k =>
      obtain ⟨r, hr, -, hstep⟩ := hstep
      -- The status byte goes to `info[].status`, which is no part of a request.
      obtain ⟨q, i, hq, hstatus⟩ := hreq r (List.mem_of_getElem? hr)
      rw [hstep q i hq hstatus]
      exact ⟨rfl, rfl, rfl, rfl, rfl⟩
  | append k =>
      obtain ⟨r, -, -, -, rfl⟩ := hstep
      exact ⟨rfl, rfl, rfl, rfl, rfl⟩
  | bump k =>
      obtain ⟨r, -, -, rfl⟩ := hstep
      exact ⟨rfl, rfl, rfl, rfl, rfl⟩

/-- Nor does the handler. -/
theorem sameRequests_isrStep [DecidableEq β] (io : DiskIo β) :
    SameRequests io.disk (isrStep io).disk := by
  unfold isrStep
  split <;> exact ⟨rfl, rfl, rfl, rfl, rfl⟩

/-- So both make the steps that a run of the call allows to others. -/
theorem rwRun_other [DecidableEq β] (c : RwCall β) (io : DiskIo β) (pc : RwPc) :
    RwRunStep c (io, pc) .other (isrStep io, pc) ∧
    ∀ m io', (∀ r ∈ io.inFlight, HasStatus io.disk r.head) → DevStep io m io' →
      RwRunStep c (io, pc) .other (io', pc) :=
  ⟨⟨sameRequests_isrStep io, rfl⟩, fun _ _ hreq hstep =>
    ⟨sameRequests_devStep hstep hreq, rfl⟩⟩

/-! ### The frame of an assignment -/

/-- The assignments from `d` to `d'` stay within the requests of `idx`. -/
structure Outside (idx : List Nat) (d d' : Disk β) : Prop where
  desc : ∀ i, i ∉ idx → d'.table.desc i = d.table.desc i
  free : ∀ i, i ∉ idx → d'.table.free i = d.table.free i
  ops : ∀ i, i ∉ idx → d'.ops i = d.ops i
  infoB : ∀ i, i ∉ idx → d'.infoB i = d.infoB i

/-- Two stretches of assignments within the same requests. -/
theorem Outside.trans {idx : List Nat} {d d' d'' : Disk β} (h : Outside idx d d')
    (h' : Outside idx d' d'') : Outside idx d d'' :=
  ⟨fun i hi => (h'.desc i hi).trans (h.desc i hi), fun i hi => (h'.free i hi).trans (h.free i hi),
    fun i hi => (h'.ops i hi).trans (h.ops i hi), fun i hi => (h'.infoB i hi).trans (h.infoB i hi)⟩

/-- An earlier entry stays, and decodes to the same request, when a call
works on descriptors that were free. -/
theorem LiveEntry.frame {place : DiskPlace β} {idx : List Nat} {d d' : Disk β} {head : Nat}
    (hlive : LiveEntry place d head) (hfree : ∀ i ∈ idx, d.table.free i = true)
    (h : Outside idx d d') :
    LiveEntry place d' head ∧ decodeReq place.opsAt d' head = decodeReq place.opsAt d head ∧
      d'.infoB head = d.infoB head := by
  -- What is in use is not among the free descriptors that the call has got.
  have hout : ∀ i, d.table.free i = false → i ∉ idx := by
    intro i hi hmem
    rw [hfree i hmem] at hi
    exact absurd hi (by simp)
  obtain ⟨⟨ds, hwalk, hds⟩, hheader⟩ := hlive
  have hhead := hout head (hds head (mem_chainWalk hwalk))
  have hdesc : ∀ j ∈ ds, d'.table.desc j = d.table.desc j :=
    fun j hj => h.desc j (hout j (hds j hj))
  refine ⟨⟨⟨ds, chainWalk_congr NUM hwalk hdesc, fun i hi => ?_⟩, fun i hi => ?_⟩, ?_,
    h.infoB head hhead⟩
  · rw [h.free i (hout i (hds i hi))]
    exact hds i hi
  · rw [h.desc head hhead] at hi
    rw [h.free i (hout i (hheader i hi))]
    exact hheader i hi
  · exact decodeReq_congr hwalk hdesc fun i hi => h.ops i (hout i (hheader i hi))

/-- The device and the handler stay outside of every request. -/
theorem Outside.of_same {idx : List Nat} {d d' : Disk β} (h : SameRequests d d') :
    Outside idx d d' := by
  refine ⟨fun i _ => ?_, fun i _ => ?_, fun i _ => ?_, fun i _ => ?_⟩
  · rw [h.table]
  · rw [h.table]
  · rw [h.ops]
  · rw [h.infoB]

/-- The assignments that link three descriptors go to these three. -/
theorem outside_link (req : ChainReq (Ptr β)) {i j k : Nat}
    {stmt : DescTable (Ptr β) → DescTable (Ptr β)}
    (h : stmt ∈ linkHeader [i, j, k] req.headerAddr req.headerLen
      ++ linkData [i, j, k] req.write req.dataAddr req.dataLen
      ++ linkStatus [i, j, k] req.statusAddr req.statusLen) (d : Disk β) :
    Outside [i, j, k] d (onTable stmt d) := by
  have hsame : ∀ l, l ∉ [i, j, k] → (stmt d.table).desc l = d.table.desc l ∧
      (stmt d.table).free l = d.table.free l := by
    intro l hl
    have hne : l ≠ i ∧ l ≠ j ∧ l ≠ k := by simpa using hl
    obtain ⟨hi, hj, hk⟩ := hne
    simp only [linkHeader, linkData, linkStatus, List.mem_append, List.mem_cons,
      List.not_mem_nil, or_false] at h
    rcases h with
      ((rfl | rfl | rfl | rfl) | rfl | rfl | rfl | rfl | rfl) | rfl | rfl | rfl | rfl <;>
      simp [DescTable.setAddr, DescTable.setLen, DescTable.setFlags, DescTable.orFlags,
        DescTable.setNext, hi, hj, hk]
  exact ⟨fun l hl => (hsame l hl).1, fun l hl => (hsame l hl).2, fun _ _ => rfl, fun _ _ => rfl⟩

/-- Taking descriptors writes their `free[]` and nothing else. -/
theorem outside_take (idx : List Nat) (d : Disk β) : Outside idx d (onTable (take idx) d) := by
  refine ⟨fun _ _ => rfl, fun i hi => ?_, fun _ _ => rfl, fun _ _ => rfl⟩
  simp [onTable, take, hi]

variable [DecidableEq β]

/-- Each assignment of `virtio_disk_rw` stays within its descriptors. -/
theorem outside_rwFormat {c : RwCall β} {i j k : Nat} {stmt : Disk β → Disk β}
    (h : stmt ∈ rwFormat c [i, j, k]) (d : Disk β) : Outside [i, j, k] d (stmt d) := by
  -- A store to the header touches `ops` of the first descriptor only.
  have hops : ∀ f, Outside [i, j, k] d (onOps i f d) := by
    intro f
    refine ⟨fun _ _ => rfl, fun _ _ => rfl, fun l hl => ?_, fun _ _ => rfl⟩
    have hne : l ≠ i := fun heq => hl (by simp [heq])
    exact Function.update_of_ne hne ..
  simp only [rwFormat, List.mem_append, List.mem_map, List.mem_cons, List.not_mem_nil,
    or_false] at h
  -- One case for each statement, in the order of the source.
  rcases h with (((((rfl | rfl | rfl) | ⟨f, hf, rfl⟩) | ⟨f, hf, rfl⟩) | rfl) | ⟨f, hf, rfl⟩) |
    rfl | rfl
  · exact hops _
  · exact hops _
  · exact hops _
  · exact outside_link (rwReq c i) (List.mem_append_left _ (List.mem_append_left _ hf)) d
  · exact outside_link (rwReq c i) (List.mem_append_left _ (List.mem_append_right _ hf)) d
  · exact ⟨fun _ _ => rfl, fun _ _ => rfl, fun _ _ => rfl, fun _ _ => rfl⟩
  · exact outside_link (rwReq c i) (List.mem_append_right _ hf) d
  · exact ⟨fun _ _ => rfl, fun _ _ => rfl, fun _ _ => rfl, fun _ _ => rfl⟩
  · refine ⟨fun _ _ => rfl, fun _ _ => rfl, fun _ _ => rfl, fun l hl => ?_⟩
    have hne : l ≠ i := fun heq => hl (by simp [heq])
    exact Function.update_of_ne hne ..

/-- So does any block of them on the descriptors just taken, and none touches
the available ring. -/
theorem outside_foldl {c : RwCall β} {idx : List Nat} (hlen : idx.length = 3)
    {stmts : List (Disk β → Disk β)} (h : stmts ⊆ rwFormat c idx) (d : Disk β) :
    Outside idx d (stmts.foldl (fun d stmt => stmt d) (onTable (take idx) d)) ∧
      (stmts.foldl (fun d stmt => stmt d) (onTable (take idx) d)).availIdx = d.availIdx ∧
      (stmts.foldl (fun d stmt => stmt d) (onTable (take idx) d)).availRing = d.availRing := by
  obtain ⟨i, j, k, rfl⟩ := List.length_eq_three.mp hlen
  refine List.foldlRecOn (motive := fun d' => Outside [i, j, k] d d' ∧
    d'.availIdx = d.availIdx ∧ d'.availRing = d.availRing) stmts _
    ⟨outside_take [i, j, k] d, rfl, rfl⟩ ?_
  rintro d' ⟨hout, hidx, hring⟩ stmt hstmt
  obtain ⟨hidx', hring', -⟩ := rwFormat_rings (h hstmt) d'
  exact ⟨hout.trans (outside_rwFormat (h hstmt) d'), hidx'.trans hidx, hring'.trans hring⟩

/-- What an assignment writes into the requests depends on these alone. -/
theorem sameRequests_rwFormat {c : RwCall β} {idx : List Nat} {stmt : Disk β → Disk β}
    (hstmt : stmt ∈ rwFormat c idx) {d d' : Disk β} (h : SameRequests d d') :
    SameRequests (stmt d) (stmt d') := by
  obtain ⟨htable, hops, hidx, hring, hinfo⟩ := h
  have honOps : ∀ i f, SameRequests (onOps i f d) (onOps i f d') :=
    fun i f => ⟨htable, by simp only [onOps, hops], hidx, hring, hinfo⟩
  have honTable : ∀ f, SameRequests (onTable f d) (onTable f d') :=
    fun f => ⟨congrArg f htable, hops, hidx, hring, hinfo⟩
  simp only [rwFormat, List.mem_append, List.mem_map, List.mem_cons, List.not_mem_nil,
    or_false] at hstmt
  -- One case for each statement, in the order of the source.
  rcases hstmt with
    (((((rfl | rfl | rfl) | ⟨f, -, rfl⟩) | ⟨f, -, rfl⟩) | rfl) | ⟨f, -, rfl⟩) | rfl | rfl
  · exact honOps _ _
  · exact honOps _ _
  · exact honOps _ _
  · exact honTable f
  · exact honTable f
  · exact ⟨htable, hops, hidx, hring, hinfo⟩
  · exact honTable f
  · exact ⟨htable, hops, hidx, hring, hinfo⟩
  · exact ⟨htable, hops, hidx, hring, by simp only [hinfo]⟩

/-! ### The memory at each program point -/

/-- The requests and the available ring at a program point, from those at
the start of the call. -/
def rwMemory (c : RwCall β) (d : Disk β) : RwPc → Disk β
  | .allocTest idx _ | .allocTake idx _ => onTable (take idx) d
  | .format idx k =>
      ((rwFormat c idx).take k).foldl (fun d stmt => stmt d) (onTable (take idx) d)
  | .ring idx => formatted c idx (onTable (take idx) d)
  | .bump idx => availPut idx (formatted c idx (onTable (take idx) d))
  | .notify idx => availBump (availPut idx (formatted c idx (onTable (take idx) d)))
  | _ => d

/-- What a program point says about the descriptors it has. -/
def RwAt (d : Disk β) : RwPc → Prop
  | .allocTest idx i =>
      Takeable NUM d.table idx ∧ idx.length < 3 ∧ i ≤ NUM ∧
      ∀ j < i, (take idx d.table).free j = false
  | .allocTake idx i => Takeable NUM d.table (idx ++ [i]) ∧ idx.length < 3
  | .format idx k => (Takeable NUM d.table idx ∧ idx.length = 3) ∧ k ≤ 19
  | .ring idx | .bump idx | .notify idx => Takeable NUM d.table idx ∧ idx.length = 3
  | _ => False

/-- A bound on the steps up to the notify. `alloc_desc` looks at `NUM`
descriptors at most, and there are 19 assignments. -/
def rwLeft : RwPc → Nat
  | .allocTest idx i => 22 + (3 - idx.length) * 10 - i
  | .allocTake idx i => 21 + (3 - idx.length) * 10 - i
  | .format _ k => 22 - k
  | .ring _ => 2
  | .bump _ => 1
  | _ => 0

/-- The invariant of a run `es` of the call from `s₀`. -/
structure RwInv (c : RwCall β) (s₀ : DiskIo β × RwPc) (es : List RwEvent)
    (s : DiskIo β × RwPc) : Prop where
  memory : SameRequests (rwMemory c s₀.1.disk s.2) s.1.disk
  atPc : RwAt s₀.1.disk s.2
  steps : es.count .driver + rwLeft s.2 ≤ rwLeft (.allocTest [] 0)

/-- The invariant holds at the start of the call. -/
theorem rwInv_init {c : RwCall β} {s : DiskIo β × RwPc} (h : (rwSystem c).init s) :
    RwInv c s [] s := by
  obtain ⟨io, pc⟩ := s
  obtain ⟨-, rfl⟩ : _ ∧ pc = _ := h
  refine ⟨?_, ⟨⟨List.nodup_nil, by simp, by simp⟩, by simp, Nat.zero_le _, by simp⟩, by simp⟩
  show SameRequests (onTable (take []) io.disk) io.disk
  rw [onTable, take_nil]
  exact .refl io.disk

namespace RwInv

variable {c : RwCall β} {s₀ s : DiskIo β × RwPc} {es : List RwEvent}

/-- The device and the handler keep the invariant. -/
theorem other (hinv : RwInv c s₀ es s) {s' : DiskIo β × RwPc}
    (hsame : SameRequests s.1.disk s'.1.disk) (hpc : s'.2 = s.2) :
    RwInv c s₀ (es ++ [.other]) s' := by
  refine ⟨?_, ?_, ?_⟩
  · rw [hpc]
    exact hinv.memory.trans hsame
  · rw [hpc]
    exact hinv.atPc
  · rw [hpc, List.count_append]
    exact hinv.steps

/-- A step of the call, given what it leaves. -/
theorem goto (hinv : RwInv c s₀ es s) {io : DiskIo β} {pc : RwPc}
    (hstep : rwStep c s.1 s.2 = (io, pc))
    (hmem : SameRequests (rwMemory c s₀.1.disk pc) io.disk) (hpc : RwAt s₀.1.disk pc)
    (hleft : rwLeft pc < rwLeft s.2) :
    RwInv c s₀ (es ++ [.driver]) (rwStep c s.1 s.2) := by
  rw [hstep]
  refine ⟨hmem, hpc, ?_⟩
  have hsteps := hinv.steps
  show (es ++ [RwEvent.driver]).count .driver + rwLeft pc ≤ _
  rw [List.count_append, List.count_singleton_self]
  omega

/-- A look at `free[i]`. With three free descriptors the scan does not come
to the end, so nothing is rolled back. -/
theorem allocTest (hinv : RwInv c s₀ es s) (hfree : 3 ≤ freeCount NUM s₀.1.disk.table)
    {idx : List Nat} {i : Nat} (hs : s.2 = .allocTest idx i) :
    RwInv c s₀ (es ++ [.driver]) (rwStep c s.1 s.2) := by
  have hmem := hinv.memory
  have hpc := hinv.atPc
  rw [hs] at hmem hpc
  obtain ⟨htake, hlen, hi, hbefore⟩ := hpc
  have htable : s.1.disk.table = take idx s₀.1.disk.table := hmem.table
  have hne : i ≠ NUM := by
    rintro rfl
    -- A scan to the end has seen no free descriptor but those of `idx`.
    have hall : ∀ j < NUM, s₀.1.disk.table.free j = true → j ∈ idx := by
      intro j hj hjfree
      simpa [take, hjfree] using hbefore j hj
    have hle := freeCount_le hall
    omega
  by_cases htest : s.1.disk.table.free i = true
  · have hstep : rwStep c s.1 s.2 = (s.1, .allocTake idx i) := by
      rw [hs, rwStep, if_neg hne, if_pos htest]
    rw [htable] at htest
    refine hinv.goto hstep hmem ⟨htake.snoc (by omega) htest, hlen⟩ ?_
    rw [hs]
    simp only [rwLeft]
    unfold NUM at hi
    omega
  · have hstep : rwStep c s.1 s.2 = (s.1, .allocTest idx (i + 1)) := by
      rw [hs, rwStep, if_neg hne, if_neg htest]
    rw [htable] at htest
    refine hinv.goto hstep hmem ⟨htake, hlen, by omega, fun j hj => ?_⟩ ?_
    · rcases Nat.lt_succ_iff_lt_or_eq.mp hj with hlt | rfl
      · exact hbefore j hlt
      · simpa using htest
    · rw [hs]
      simp only [rwLeft]
      unfold NUM at hi hne
      omega

/-- `free[i] = 0` for the descriptor that the scan has found. -/
theorem allocTake (hinv : RwInv c s₀ es s) {idx : List Nat} {i : Nat}
    (hs : s.2 = .allocTake idx i) : RwInv c s₀ (es ++ [.driver]) (rwStep c s.1 s.2) := by
  have hmem := hinv.memory
  have hpc := hinv.atPc
  rw [hs] at hmem hpc
  obtain ⟨htake, hlen⟩ := hpc
  have hi : i < NUM := htake.lt i (by simp)
  have hlen' : (idx ++ [i]).length = idx.length + 1 := by simp
  -- The table is that of one more descriptor taken.
  have hmem' : SameRequests (onTable (take (idx ++ [i])) s₀.1.disk)
      (s.1.onDisk (onTable (DescTable.setFree i false))).disk := by
    refine ⟨?_, hmem.ops, hmem.availIdx, hmem.availRing, hmem.infoB⟩
    have htable : s.1.disk.table = take idx s₀.1.disk.table := hmem.table
    show s.1.disk.table.setFree i false = take (idx ++ [i]) s₀.1.disk.table
    rw [htable, setFree_false, take_take]
  by_cases hthree : (idx ++ [i]).length = 3
  · have hstep : rwStep c s.1 s.2
        = (s.1.onDisk (onTable (DescTable.setFree i false)), .format (idx ++ [i]) 0) := by
      rw [hs, rwStep, if_pos hthree]
    refine hinv.goto hstep hmem' ⟨⟨htake, hthree⟩, Nat.zero_le _⟩ ?_
    rw [hs]
    simp only [rwLeft]
    unfold NUM at hi
    omega
  · have hstep : rwStep c s.1 s.2
        = (s.1.onDisk (onTable (DescTable.setFree i false)), .allocTest (idx ++ [i]) 0) := by
      rw [hs, rwStep, if_neg hthree]
    refine hinv.goto hstep hmem' ⟨htake, by omega, Nat.zero_le _, by simp⟩ ?_
    rw [hs]
    simp only [rwLeft]
    unfold NUM at hi
    omega

/-- An assignment of the request, or none is left. -/
theorem format (hinv : RwInv c s₀ es s) {idx : List Nat} {k : Nat} (hs : s.2 = .format idx k) :
    RwInv c s₀ (es ++ [.driver]) (rwStep c s.1 s.2) := by
  have hmem := hinv.memory
  have hpc := hinv.atPc
  rw [hs] at hmem hpc
  obtain ⟨htake, hk19⟩ := hpc
  have hlength : (rwFormat c idx).length = 19 := rfl
  -- 19 assignments, one for each step.
  cases hk : (rwFormat c idx)[k]? with
  | some stmt =>
      have hstep : rwStep c s.1 s.2 = (s.1.onDisk stmt, .format idx (k + 1)) := by
        simp only [hs, rwStep, hk]
      have hlt := (List.getElem?_eq_some_iff.mp hk).1
      have hnext : rwMemory c s₀.1.disk (.format idx (k + 1))
          = stmt (rwMemory c s₀.1.disk (.format idx k)) := by
        simp only [rwMemory]
        rw [List.take_add_one, hk, List.foldl_append]
        rfl
      refine hinv.goto hstep ?_ ⟨htake, by omega⟩ ?_
      · rw [hnext]
        exact sameRequests_rwFormat (List.mem_of_getElem? hk) hmem
      · rw [hs]
        simp only [rwLeft]
        omega
  | none =>
      have hstep : rwStep c s.1 s.2 = (s.1, .ring idx) := by
        simp only [hs, rwStep, hk]
      have hall : (rwFormat c idx).take k = rwFormat c idx :=
        List.take_of_length_le (List.getElem?_eq_none_iff.mp hk)
      have hdone : rwMemory c s₀.1.disk (.ring idx) = rwMemory c s₀.1.disk (.format idx k) := by
        simp only [rwMemory, formatted]
        rw [hall]
      refine hinv.goto hstep ?_ htake ?_
      · rw [hdone]
        exact hmem
      · rw [hs]
        simp only [rwLeft]
        omega

/-- A step of the call, one case for each program point up to the notify. -/
theorem driver (hinv : RwInv c s₀ es s) (hfree : 3 ≤ freeCount NUM s₀.1.disk.table)
    (hnot : ∀ idx, s.2 ≠ .notify idx) :
    RwInv c s₀ (es ++ [.driver]) (rwStep c s.1 s.2) := by
  have hmem := hinv.memory
  have hpc := hinv.atPc
  cases hs : s.2 with
  | allocTest idx i =>
      rw [← hs]
      exact hinv.allocTest hfree hs
  | allocTake idx i =>
      rw [← hs]
      exact hinv.allocTake hs
  | format idx k =>
      rw [← hs]
      exact hinv.format hs
  | ring idx =>
      rw [hs] at hmem hpc
      obtain ⟨htable, hops, hidx, hring, hinfo⟩ := hmem
      have hstep : rwStep c s.1 s.2 = ((rwStep c s.1 (.ring idx)).1, .bump idx) := by
        rw [hs]
        rfl
      -- The slot is the next one of the ring, from the index as it was at the
      -- start.
      rw [← hs]
      refine hinv.goto hstep ⟨htable, hops, hidx, ?_, hinfo⟩ hpc ?_
      · show Function.update s.1.disk.availRing (s.1.disk.availIdx.toNat % NUM) _ = _
        rw [hidx, hring]
        rfl
      · rw [hs]
        simp [rwLeft]
  | bump idx =>
      rw [hs] at hmem hpc
      obtain ⟨htable, hops, hidx, hring, hinfo⟩ := hmem
      have hstep : rwStep c s.1 s.2 = (s.1.onDisk availBump, .notify idx) := by
        rw [hs]
        rfl
      rw [← hs]
      refine hinv.goto hstep ⟨htable, hops, congrArg (· + 1#16) hidx, hring, hinfo⟩ hpc ?_
      rw [hs]
      simp [rwLeft]
  | notify idx => exact absurd hs (hnot idx)
  | _ =>
      rw [hs] at hpc
      exact hpc.elim

end RwInv

/-- The invariant holds after every interleaving. -/
theorem rwInv_run {c : RwCall β} {s₀ s : DiskIo β × RwPc} {es : List RwEvent}
    (h₀ : (rwSystem c).init s₀) (hrun : (rwSystem c).Run s₀ es s) : RwInv c s₀ es s := by
  induction hrun with
  | nil => exact rwInv_init h₀
  | @snoc t u es e _ hstep ih =>
      cases e with
      | driver =>
          obtain ⟨hnot, rfl⟩ := hstep
          exact ih.driver h₀.1 hnot
      | other =>
          obtain ⟨hsame, hpc⟩ := hstep
          exact ih.other hsame hpc

/-! ### The notify is reached -/

omit [DecidableEq β] in
/-- Only at the notify no step is left. -/
theorem notify_of_rwLeft {d : Disk β} {pc : RwPc} (h : RwAt d pc) (hleft : rwLeft pc = 0) :
    ∃ idx, pc = .notify idx := by
  cases pc with
  | notify idx => exact ⟨idx, rfl⟩
  | allocTest idx i =>
      obtain ⟨-, -, hi, -⟩ := h
      simp only [rwLeft] at hleft
      unfold NUM at hi
      omega
  | allocTake idx i =>
      have hi := h.1.lt i (by simp)
      simp only [rwLeft] at hleft
      unfold NUM at hi
      omega
  | format idx k =>
      have hk := h.2
      simp only [rwLeft] at hleft
      omega
  | ring idx | bump idx => simp [rwLeft] at hleft
  | _ => exact h.elim

/-- Left to run, a call comes to its notify. Induction on the steps that the
bound still allows. -/
theorem rw_notifies {c : RwCall β} {s₀ : DiskIo β × RwPc} (h₀ : (rwSystem c).init s₀) (n : Nat) :
    ∀ {es : List RwEvent} {s : DiskIo β × RwPc}, RwInv c s₀ es s →
      rwLeft (.allocTest [] 0) ≤ es.count .driver + n →
      ∃ k t idx, (rwSystem c).Run s (List.replicate k .driver) t ∧ t.2 = .notify idx := by
  induction n with
  | zero =>
      intro es s hinv hn
      -- All the steps have been made, so this is the notify.
      have hsteps := hinv.steps
      obtain ⟨idx, hidx⟩ := notify_of_rwLeft hinv.atPc (by omega)
      exact ⟨0, s, idx, .nil s, hidx⟩
  | succ n ih =>
      intro es s hinv hn
      by_cases hnot : ∃ idx, s.2 = .notify idx
      · obtain ⟨idx, hidx⟩ := hnot
        exact ⟨0, s, idx, .nil s, hidx⟩
      · -- Otherwise the driver makes one more step, and the bound shrinks.
        have hnot' : ∀ idx, s.2 ≠ .notify idx := fun idx h => hnot ⟨idx, h⟩
        have hstep : (rwSystem c).step s .driver (rwStep c s.1 s.2) := ⟨hnot', rfl⟩
        have hn' : rwLeft (.allocTest [] 0) ≤ (es ++ [RwEvent.driver]).count .driver + n := by
          rw [List.count_append, List.count_singleton_self]
          omega
        obtain ⟨k, t, idx, hrun, ht⟩ := ih (hinv.driver h₀.1 hnot') hn'
        exact ⟨k + 1, t, idx, (System.Run.single hstep).append hrun, ht⟩

/-! ### Earlier entries -/

/-- At each program point the requests have changed in descriptors that were
free at the start. -/
theorem rwMemory_outside (c : RwCall β) {d : Disk β} {pc : RwPc} (h : RwAt d pc) :
    ∃ idx, (∀ i ∈ idx, d.table.free i = true) ∧ Outside idx d (rwMemory c d pc) := by
  cases pc with
  | allocTest idx i => exact ⟨idx, h.1.free, outside_take idx d⟩
  | allocTake idx i =>
      exact ⟨idx, fun j hj => h.1.free j (List.mem_append_left _ hj), outside_take idx d⟩
  | format idx k =>
      have hout := (outside_foldl h.1.2 (List.take_subset k (rwFormat c idx)) d).1
      exact ⟨idx, h.1.1.free, hout⟩
  | ring idx =>
      have hout := (outside_foldl h.2 (List.Subset.refl (rwFormat c idx)) d).1
      exact ⟨idx, h.1.free, hout⟩
  | bump idx | notify idx =>
      have hout := (outside_foldl h.2 (List.Subset.refl (rwFormat c idx)) d).1
      exact ⟨idx, h.1.free, hout.desc, hout.free, hout.ops, hout.infoB⟩
  | _ => exact h.elim

/-- The entry that a program point has added to the available ring. -/
def shownEntry : RwPc → List (BitVec 16)
  | .notify idx => [BitVec.ofNat 16 idx[0]!]
  | _ => []

/-- The available ring changes with the increment of `avail->idx`, and by
one entry. -/
theorem rwMemory_entries (c : RwCall β) {d : Disk β} {pc : RwPc} (h : RwAt d pc) {q : BitVec 16}
    (hroom : (availEntries d q).length < NUM) :
    availEntries (rwMemory c d pc) q = availEntries d q ++ shownEntry pc := by
  have hsize : Ring.size q d.availIdx < NUM := by
    rwa [availEntries, Ring.entries_length] at hroom
  cases pc with
  | allocTest idx i | allocTake idx i => exact (List.append_nil _).symm
  | format idx k =>
      obtain ⟨-, hidx, hring⟩ := outside_foldl h.1.2 (List.take_subset k (rwFormat c idx)) d
      rw [availEntries, rwMemory, hidx, hring]
      exact (List.append_nil _).symm
  | ring idx =>
      obtain ⟨-, hidx, hring⟩ := outside_foldl h.2 (List.Subset.refl (rwFormat c idx)) d
      rw [availEntries, rwMemory, formatted, hidx, hring]
      exact (List.append_nil _).symm
  -- The slot at `avail->idx` is that of no earlier entry.
  | bump idx =>
      obtain ⟨-, hidx, hring⟩ := outside_foldl h.2 (List.Subset.refl (rwFormat c idx)) d
      have hput := Ring.entries_update num_dvd d.availRing hsize (BitVec.ofNat 16 idx[0]!)
      rw [availEntries, rwMemory, availPut, formatted, hidx, hring]
      exact hput.trans (List.append_nil _).symm
  | notify idx =>
      obtain ⟨-, hidx, hring⟩ := outside_foldl h.2 (List.Subset.refl (rwFormat c idx)) d
      have hpush := Ring.entries_push num_dvd (by decide) d.availRing hsize
        (BitVec.ofNat 16 idx[0]!)
      rw [availEntries, rwMemory, availBump, availPut, formatted, hidx, hring]
      exact hpush
  | _ => exact h.elim

/-! ### The new entry -/

/-- The chain `idx` that `virtio_disk_rw(b, write)` leaves: three different
descriptors, for the header in `disk.ops`, the 512 bytes of `b->data`, which
the device writes for a read, and the status byte. Of the address of the header
only the lower 32 bits are said. -/
structure Chained (place : DiskPlace β) (b : β) (write : Bool) (blockno : Word) (d : Disk β)
    (idx : List Nat) : Prop where
  length : idx.length = 3
  nodup : idx.Nodup
  lt : ∀ i ∈ idx, i < NUM
  chain : chainWalk NUM d.table NUM idx[0]! = some idx
  type : (d.ops idx[0]!).type = if write then virtioBlkTOut else virtioBlkTIn
  sector : (d.ops idx[0]!).sector = blockno.setWidth 64
  header : ((d.table.desc idx[0]!).addr.value place).setWidth 32 = place.addr (.ops idx[0]!) ∧
    (d.table.desc idx[0]!).len = 16#32
  data : (d.table.desc idx[1]!).addr.value place = (place.addr (.data b)).setWidth 64 ∧
    (d.table.desc idx[1]!).len = 512#32 ∧
    ((d.table.desc idx[1]!).flags &&& vringDescFWrite ≠ 0#16 ↔ write = false)
  status : (d.table.desc idx[2]!).addr.value place = (place.addr (.status idx[0]!)).setWidth 64 ∧
    (d.table.desc idx[2]!).len = 1#32 ∧ (d.table.desc idx[2]!).flags &&& vringDescFWrite ≠ 0#16
  infoB : d.infoB idx[0]! = some b

/-- The device reads the request of `virtio_disk_rw(b, write)` in the chain
`idx`. -/
def Encodes (place : DiskPlace β) (b : β) (write : Bool) (blockno : Word) (d : Disk β)
    (idx : List Nat) : Prop :=
  Chained place b write blockno d idx ∧
  ∃ q, decodeReq place.opsAt d idx[0]! = some q ∧
    q.header.type = (if write then virtioBlkTOut else virtioBlkTIn) ∧
    q.header.sector = blockno.setWidth 64 ∧
    q.data = d.table.desc idx[1]! ∧ q.status = d.table.desc idx[2]!

/-- All assignments together write the chain, on any memory. -/
theorem chained_formatted (place : DiskPlace β) (b : β) (write : Bool) (blockno : Word) (id : Nat)
    {i j k : Nat} (hnodup : [i, j, k].Nodup) (hlt : ∀ l ∈ [i, j, k], l < NUM) (d : Disk β) :
    Chained place b write blockno (formatted (rwCall b write blockno id) [i, j, k] d)
      [i, j, k] := by
  obtain ⟨hops, hdi, hdj, hdk⟩ := formatted_fields (rwCall b write blockno id) hnodup d
  have hwalk := chainWalk_link (rwReq (rwCall b write blockno id) i) hnodup hlt d.table
  refine ⟨rfl, hnodup, hlt, hwalk, ?_, ?_, ⟨?_, ?_⟩, ⟨?_, ?_, ?_⟩, ⟨?_, ?_, ?_⟩, ?_⟩
  · -- The header in `disk.ops`, the three descriptors in turn, and `info[].b`.
    exact congrArg VirtioBlkReq.type hops
  · rw [show [i, j, k][0]! = i from rfl, hops]
    simp [rwCall]
  · rw [show [i, j, k][0]! = i from rfl, hdi]
    exact setWidth_signExtend _
  · exact congrArg VirtqDesc.len hdi
  · rw [show [i, j, k][1]! = j from rfl, hdj]
    rfl
  · exact congrArg VirtqDesc.len hdj
  · rw [show [i, j, k][1]! = j from rfl, hdj]
    show ((if write then 0#16 else vringDescFWrite) ||| vringDescFNext) &&& vringDescFWrite ≠ 0#16
      ↔ write = false
    cases write <;> decide
  · rw [show [i, j, k][2]! = k from rfl, hdk]
    rfl
  · exact congrArg VirtqDesc.len hdk
  · rw [show [i, j, k][2]! = k from rfl, hdk]
    show vringDescFWrite &&& vringDescFWrite ≠ 0#16
    decide
  · simp [formatted, rwFormat, onOps, rwCall]

/-- The device reads the request in the chain exactly where it can follow the
address of the header. -/
theorem encodes_formatted_iff (place : DiskPlace β) (b : β) (write : Bool) (blockno : Word)
    (id : Nat) {i j k : Nat} (hnodup : [i, j, k].Nodup) (hlt : ∀ l ∈ [i, j, k], l < NUM)
    (d : Disk β) :
    Encodes place b write blockno (formatted (rwCall b write blockno id) [i, j, k] d) [i, j, k] ↔
      (place.addr (.ops 0)).toNat < 2 ^ 31 := by
  have hchained := chained_formatted place b write blockno id hnodup hlt d
  have hdecode := decodeReq_formatted (rwCall b write blockno id) hnodup hlt d place.opsAt
  obtain ⟨-, -, hdj, hdk⟩ := formatted_fields (rwCall b write blockno id) hnodup d
  rw [opsAt_signed place (hlt i (by simp))] at hdecode
  constructor
  · rintro ⟨-, q, hq, -⟩
    by_contra hhigh
    rw [if_neg hhigh] at hdecode
    exact absurd (hdecode.symm.trans hq) (by simp)
  · intro hlow
    rw [if_pos hlow] at hdecode
    exact ⟨hchained, _, hdecode, hchained.type, hchained.sector, hdj.symm, hdk.symm⟩

omit [DecidableEq β] in
/-- A chain and its request are in the table, in `disk.ops` and in `info[].b`. -/
theorem Chained.congr {place : DiskPlace β} {b : β} {write : Bool} {blockno : Word}
    {d d' : Disk β} {idx : List Nat} (h : Chained place b write blockno d idx)
    (htable : d'.table = d.table) (hops : d'.ops = d.ops) (hinfo : d'.infoB = d.infoB) :
    Chained place b write blockno d' idx := by
  obtain ⟨hlength, hnodup, hlt, hchain, htype, hsector, hheader, hdata, hstatus, hinfoB⟩ := h
  rw [← htable] at hchain hheader hdata hstatus
  rw [← hops] at htype hsector
  rw [← hinfo] at hinfoB
  exact ⟨hlength, hnodup, hlt, hchain, htype, hsector, hheader, hdata, hstatus, hinfoB⟩

omit [DecidableEq β] in
/-- Only the table, the headers and `info[].b` count. -/
theorem Encodes.congr {place : DiskPlace β} {b : β} {write : Bool} {blockno : Word}
    {d d' : Disk β} {idx : List Nat} (h : Encodes place b write blockno d idx)
    (htable : d'.table = d.table) (hops : d'.ops = d.ops) (hinfo : d'.infoB = d.infoB) :
    Encodes place b write blockno d' idx := by
  obtain ⟨hchained, hrequest⟩ := h
  have hdecode : decodeReq place.opsAt d' idx[0]! = decodeReq place.opsAt d idx[0]! := by
    unfold decodeReq
    rw [htable, hops]
  refine ⟨hchained.congr htable hops hinfo, ?_⟩
  rw [hdecode, htable]
  exact hrequest

/-- The chain of a new request is in use, as those of earlier entries are. -/
theorem liveEntry_formatted (place : DiskPlace β) (c : RwCall β) {i j k : Nat}
    (hnodup : [i, j, k].Nodup) (hlt : ∀ l ∈ [i, j, k], l < NUM) (d : Disk β) :
    LiveEntry place (formatted c [i, j, k] (onTable (take [i, j, k]) d)) i := by
  have htable : (formatted c [i, j, k] (onTable (take [i, j, k]) d)).table
      = link (rwReq c i) [i, j, k] (take [i, j, k] d.table) := rfl
  have htaken : ∀ l ∈ [i, j, k], (take [i, j, k] d.table).free l = false := by
    intro l hl
    simp only [take, hl, not_true, decide_false, Bool.and_false]
  refine ⟨⟨[i, j, k], ?_, fun l hl => ?_⟩, fun l hl => ?_⟩
  · rw [htable]
    exact chainWalk_link _ hnodup hlt _
  · rw [htable, link_free]
    exact htaken l hl
  · -- The address of the first descriptor names the header of that index.
    rw [(formatted_fields c hnodup _).2.1, opsAt_signed place (hlt i (by simp))] at hl
    obtain rfl : i = l := by
      split at hl
      · exact Option.some.inj hl
      · simp at hl
    rw [htable, link_free]
    exact htaken i (by simp)

omit [DecidableEq β] in
/-- The increment of `avail->idx` keeps the rest of the requests. -/
theorem of_availBump {d d' : Disk β} (h : SameRequests (availBump d) d') :
    d'.table = d.table ∧ d'.ops = d.ops ∧ d'.availRing = d.availRing ∧ d'.infoB = d.infoB :=
  ⟨h.table, h.ops, h.availRing, h.infoB⟩

/-- From the store to the ring on, the new entry is complete, and the device
reads its request where it can follow the address of the header. -/
theorem complete_of_put (place : DiskPlace β) (b : β) (write : Bool) (blockno : Word) (id : Nat)
    {idx : List Nat} (d d' : Disk β) (htake : Takeable NUM d.table idx) (hlen : idx.length = 3)
    (htable : d'.table = (rwMemory (rwCall b write blockno id) d (.bump idx)).table)
    (hops : d'.ops = (rwMemory (rwCall b write blockno id) d (.bump idx)).ops)
    (hring : d'.availRing = (rwMemory (rwCall b write blockno id) d (.bump idx)).availRing)
    (hinfo : d'.infoB = (rwMemory (rwCall b write blockno id) d (.bump idx)).infoB) :
    ((d'.availRing (d.availIdx.toNat % NUM)).toNat = idx[0]! ∧ LiveEntry place d' idx[0]! ∧
      Chained place b write blockno d' idx) ∧
    (Encodes place b write blockno d' idx ↔ (place.addr (.ops 0)).toNat < 2 ^ 31) := by
  obtain ⟨i, j, k, rfl⟩ := List.length_eq_three.mp hlen
  have hi : i < NUM := htake.lt i (by simp)
  -- None of the 19 assignments moves `avail->idx`, so the slot is still the next
  -- one.
  have hidx : (formatted (rwCall b write blockno id) [i, j, k]
      (onTable (take [i, j, k]) d)).availIdx = d.availIdx :=
    (outside_foldl hlen (List.Subset.refl (rwFormat _ [i, j, k])) d).2.1
  have hlive := liveEntry_formatted place (rwCall b write blockno id) htake.nodup htake.lt d
  have hchained := chained_formatted place b write blockno id htake.nodup htake.lt
    (onTable (take [i, j, k]) d)
  have hencodes := encodes_formatted_iff place b write blockno id htake.nodup htake.lt
    (onTable (take [i, j, k]) d)
  have hslot : ∀ F : Disk β, F.availIdx = d.availIdx →
      (availPut [i, j, k] F).availRing (d.availIdx.toNat % NUM) = BitVec.ofNat 16 i := by
    intro F hF
    rw [← hF]
    exact Function.update_self ..
  refine ⟨⟨?_, ?_, hchained.congr htable hops hinfo⟩, ?_⟩
  · rw [hring, rwMemory, hslot _ hidx, BitVec.toNat_ofNat]
    unfold NUM at hi
    exact Nat.mod_eq_of_lt (by omega)
  · refine ⟨?_, ?_⟩
    · rw [htable]
      exact hlive.chain
    · rw [htable]
      exact hlive.header
  · rw [← hencodes]
    exact ⟨fun h => h.congr htable.symm hops.symm hinfo.symm, fun h => h.congr htable hops hinfo⟩

/-- The same at a program point: before and after the increment of
`avail->idx`, which changes nothing else. -/
theorem RwInv.complete {b : β} {write : Bool} {blockno : Word} {id : Nat} {s₀ s : DiskIo β × RwPc}
    {es : List RwEvent} (hinv : RwInv (rwCall b write blockno id) s₀ es s) (place : DiskPlace β)
    {idx : List Nat} (hs : s.2 = .bump idx ∨ s.2 = .notify idx) :
    ((s.1.disk.availRing (s₀.1.disk.availIdx.toNat % NUM)).toNat = idx[0]! ∧
      LiveEntry place s.1.disk idx[0]! ∧ Chained place b write blockno s.1.disk idx) ∧
    (Encodes place b write blockno s.1.disk idx ↔ (place.addr (.ops 0)).toNat < 2 ^ 31) := by
  have hmem := hinv.memory
  have hpc := hinv.atPc
  rcases hs with hs | hs
  · rw [hs] at hmem hpc
    exact complete_of_put place b write blockno id s₀.1.disk s.1.disk hpc.1 hpc.2
      hmem.table hmem.ops hmem.availRing hmem.infoB
  · rw [hs] at hmem hpc
    have hbump : SameRequests
        (availBump (rwMemory (rwCall b write blockno id) s₀.1.disk (.bump idx))) s.1.disk := hmem
    obtain ⟨htable, hops, hring, hinfo⟩ := of_availBump hbump
    exact complete_of_put place b write blockno id s₀.1.disk s.1.disk hpc.1 hpc.2
      htable hops hring hinfo

/-! ### The two results -/

/-- Each entry of an earlier call stays in use and decodes to the same request,
and the available ring shows one entry more from the increment of `avail->idx`
on, and no other. -/
def KeepsEntries (place : DiskPlace β) (s₀ s : DiskIo β × RwPc) : Prop :=
  (∀ head, LiveEntry place s₀.1.disk head →
    LiveEntry place s.1.disk head ∧
    decodeReq place.opsAt s.1.disk head = decodeReq place.opsAt s₀.1.disk head ∧
    s.1.disk.infoB head = s₀.1.disk.infoB head) ∧
  ∀ q, (availEntries s₀.1.disk q).length < NUM →
    availEntries s.1.disk q = availEntries s₀.1.disk q ++ shownEntry s.2

/-- The call leaves the other entries readable as before. -/
theorem RwInv.keepsEntries {c : RwCall β} {s₀ s : DiskIo β × RwPc} {es : List RwEvent}
    (hinv : RwInv c s₀ es s) (place : DiskPlace β) : KeepsEntries place s₀ s := by
  have hmem := hinv.memory
  refine ⟨fun head hlive => ?_, fun q hroom => ?_⟩
  · obtain ⟨idx, hfree, hout⟩ := rwMemory_outside _ hinv.atPc
    exact hlive.frame hfree (hout.trans (.of_same hmem))
  · have hentries := rwMemory_entries c hinv.atPc hroom
    rw [availEntries, hmem.availRing, hmem.availIdx]
    exact hentries

/-- The descriptors of the new chain were free. -/
theorem RwInv.free {c : RwCall β} {s₀ s : DiskIo β × RwPc} {es : List RwEvent}
    (hinv : RwInv c s₀ es s) {idx : List Nat} (hs : s.2 = .bump idx ∨ s.2 = .notify idx) :
    ∀ i ∈ idx, s₀.1.disk.table.free i = true := by
  have hpc := hinv.atPc
  rcases hs with hs | hs <;>
  · rw [hs] at hpc
    exact hpc.1.free

/-- A call of `virtio_disk_rw` publishes its request. Left to run it comes to
the notify, it keeps the entries of earlier calls, and before the increment of
`avail->idx` the slot holds the head of a chain in which the device reads the
request. -/
def Publishes (place : DiskPlace β) (b : β) (write : Bool) (blockno : Word) (id : Nat)
    (s₀ : DiskIo β × RwPc) : Prop :=
  ∀ es s, (rwSystem (rwCall b write blockno id)).Run s₀ es s →
    (∃ n t idx, (rwSystem (rwCall b write blockno id)).Run s (List.replicate n .driver) t ∧
      t.2 = .notify idx) ∧
    KeepsEntries place s₀ s ∧
    ∀ idx, s.2 = .bump idx ∨ s.2 = .notify idx →
      (s.1.disk.availRing (s₀.1.disk.availIdx.toNat % NUM)).toNat = idx[0]! ∧
      (∀ i ∈ idx, s₀.1.disk.table.free i = true) ∧ LiveEntry place s.1.disk idx[0]! ∧
      Encodes place b write blockno s.1.disk idx

/-- On any memory with three free descriptors, a call publishes its request
where `disk.ops` lies below `0x80000000`, and only there. -/
theorem rw_publishes_iff (place : DiskPlace β) (b : β) (write : Bool) (blockno : Word) (id : Nat)
    (s₀ : DiskIo β × RwPc) (h₀ : (rwSystem (rwCall b write blockno id)).init s₀) :
    Publishes place b write blockno id s₀ ↔ (place.addr (.ops 0)).toNat < 2 ^ 31 := by
  constructor
  · intro hpub
    obtain ⟨⟨n, t, idx, hrun, ht⟩, -, -⟩ := hpub [] s₀ (.nil s₀)
    obtain ⟨-, -, hnew⟩ := hpub _ t hrun
    have hinv := rwInv_run h₀ hrun
    exact (hinv.complete place (Or.inr ht)).2.mp (hnew idx (Or.inr ht)).2.2.2
  · intro hlow es s hrun
    have hinv := rwInv_run h₀ hrun
    refine ⟨rw_notifies h₀ (rwLeft (.allocTest [] 0)) hinv (Nat.le_add_left _ _),
      hinv.keepsEntries place, fun idx hs => ?_⟩
    obtain ⟨⟨hslot, hlive, -⟩, hencodes⟩ := hinv.complete place hs
    exact ⟨hslot, hinv.free hs, hlive, hencodes.mpr hlow⟩

/-- A driver with one request out, in the descriptors `0`, `1` and `2`, and
three descriptors free. Its `avail->idx` is about to wrap. -/
def oneOut : DiskIo Bool × RwPc :=
  ({  disk := formatted (rwCall true false 1#32 0) [0, 1, 2] <| onTable (take [0, 1, 2])
        { table := ⟨fun _ => ⟨.null, 0#32, 0#16, 0#16⟩, fun i => decide (i < 3 ∨ 4 < i)⟩
          availIdx := 65535#16
          availRing := fun _ => 0#16
          usedRingIdx := 65534#16
          usedRing := fun _ => 0#32
          infoB := fun _ => none
          infoStatus := fun _ => 0#8
          usedIdx := 65534#16
          ops := fun _ => ⟨0#32, 0#32, 0#64⟩
          blkDisk := fun _ => 0#32 }
      lastAvail := 65534#16
      inFlight := []
      isr := .idle
      slotCall := fun _ => 0
      completed := fun _ => 0 }, .allocTest [] 0)

/-- The example is a start of the call. -/
theorem oneOut_init : (rwSystem (rwCall false true 7#32 1)).init oneOut := ⟨by decide, rfl⟩

/-- `disk` and two blocks in the memory of the linker script. -/
def ramPlace : DiskPlace Bool where
  disk := 0x8000e000#32
  blk b := if b then 0x80012000#32 else 0x80012410#32
  aligned := by decide
  fits := by decide

/-- There `disk.ops` lies above `0x80000000`, so a second request, a write of
the other block, is not published. -/
theorem oneOut_publishes : ¬ Publishes ramPlace false true 7#32 1 oneOut := by
  rw [rw_publishes_iff ramPlace false true 7#32 1 oneOut oneOut_init]
  decide

/-- `disk` in the lower half of the addresses. -/
def lowPlace : DiskPlace Bool where
  disk := 0x1000e000#32
  blk b := if b then 0x10012000#32 else 0x10012410#32
  aligned := by decide
  fits := by decide

/-- With `disk` there the entry has the request. -/
theorem lowPlace_publishes : Publishes lowPlace false true 7#32 1 oneOut :=
  (rw_publishes_iff lowPlace false true 7#32 1 oneOut oneOut_init).mpr (by decide)

/-- One call of `virtio_disk_rw` from the lock to the notify, on any memory
with three free descriptors, while the device and the handler go on.

* It rolls nothing back and does not panic. It takes at most 52 steps to the
  notify, and left to run it comes there.
* It keeps the entries of earlier calls.
* Before the increment of `avail->idx` the new chain is complete but for the
  upper half of the address of the header.
* The steps of the handler are among those it lets others make, and so are the
  moves of the device while the chains it has taken end with a status byte. -/
theorem rwCall_chains (place : DiskPlace β) (b : β) (write : Bool) (blockno : Word) (id : Nat)
    (s₀ : DiskIo β × RwPc) (h₀ : (rwSystem (rwCall b write blockno id)).init s₀)
    (es : List RwEvent) (s : DiskIo β × RwPc)
    (hrun : (rwSystem (rwCall b write blockno id)).Run s₀ es s) :
    ((∀ idx, s.2 ≠ .rollback idx) ∧ ∀ msg, s.2 ≠ .panicked msg) ∧
    (es.count .driver ≤ 52 ∧ ∃ n t idx,
      (rwSystem (rwCall b write blockno id)).Run s (List.replicate n .driver) t ∧
      t.2 = .notify idx) ∧
    KeepsEntries place s₀ s ∧
    (∀ idx, s.2 = .bump idx ∨ s.2 = .notify idx →
      (s.1.disk.availRing (s₀.1.disk.availIdx.toNat % NUM)).toNat = idx[0]! ∧
      (∀ i ∈ idx, s₀.1.disk.table.free i = true) ∧ LiveEntry place s.1.disk idx[0]! ∧
      Chained place b write blockno s.1.disk idx) ∧
    (rwSystem (rwCall b write blockno id)).step s .other (isrStep s.1, s.2) ∧
    ∀ m io, (∀ r ∈ s.1.inFlight, HasStatus s.1.disk r.head) → DevStep s.1 m io →
      (rwSystem (rwCall b write blockno id)).step s .other (io, s.2) := by
  have hinv := rwInv_run h₀ hrun
  -- The invariant at each program point says all of it.
  have hpc := hinv.atPc
  refine ⟨⟨?_, ?_⟩, ⟨?_, ?_⟩, hinv.keepsEntries place, fun idx hs => ?_, ?_⟩
  · intro idx hs
    rw [hs] at hpc
    exact hpc
  · intro msg hs
    rw [hs] at hpc
    exact hpc
  · have hsteps := hinv.steps
    have hbound : rwLeft (.allocTest [] 0) = 52 := rfl
    omega
  · exact rw_notifies h₀ (rwLeft (.allocTest [] 0)) hinv (Nat.le_add_left _ _)
  · obtain ⟨⟨hslot, hlive, hchained⟩, -⟩ := hinv.complete place hs
    exact ⟨hslot, hinv.free hs, hlive, hchained⟩
  · exact rwRun_other (rwCall b write blockno id) s.1 s.2

/-- The request that is out in `oneOut`. -/
theorem oneOut_live : LiveEntry ramPlace oneOut.1.disk 0 :=
  liveEntry_formatted ramPlace (rwCall true false 1#32 0) (by decide) (by decide) _

/-- The result for the second request: its chain is complete, and the first
entry decodes as before. -/
theorem oneOut_chains :
    ∃ es s idx, (rwSystem (rwCall false true 7#32 1)).Run oneOut es s ∧ s.2 = .notify idx ∧
      Chained ramPlace false true 7#32 s.1.disk idx ∧
      availEntries s.1.disk 65534#16 = [0#16, BitVec.ofNat 16 idx[0]!] ∧
      decodeReq ramPlace.opsAt s.1.disk 0 = decodeReq ramPlace.opsAt oneOut.1.disk 0 := by
  have hstart := rwCall_chains ramPlace false true 7#32 1 oneOut oneOut_init [] oneOut (.nil oneOut)
  obtain ⟨n, t, idx, hrun, ht⟩ := hstart.2.1.2
  have hend := rwCall_chains ramPlace false true 7#32 1 oneOut oneOut_init _ t hrun
  obtain ⟨-, -, ⟨hlive, hentries⟩, hnew, -⟩ := hend
  refine ⟨_, t, idx, hrun, ht, (hnew idx (Or.inr ht)).2.2.2, ?_, (hlive 0 oneOut_live).2.1⟩
  rw [hentries 65534#16 (by decide), ht]
  rfl

end MiniRiscvOs.Proofs
