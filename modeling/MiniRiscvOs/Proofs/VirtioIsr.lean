import MiniRiscvOs.Kernel.VirtioIsr

/-!
# `MiniRiscvOs.Proofs.VirtioIsr`: each completion is consumed once

`virtio_disk_isr` compares `used_idx` with `used->idx` for inequality only,
both wrap after 65535, and the device may move the second one under the
loop. The main result is `isr_consumes`: the handler loads the entries in
the order of their publication and none of them twice, clears `disk` of
their owners and of no other block, and returns with the two indices equal.

`IsrInv` splits the entries of the run into those that are consumed and
those that `unconsumed` reads off the ring. What the ring does about the
wrap-around is in `Lib.Ring`, so the invariant has no arithmetic on indices.
A turn of the loop is six steps, which makes `isrLeft` exact.
-/

set_option autoImplicit false

namespace MiniRiscvOs.Proofs

open MiniRiscvOs.Lib
open MiniRiscvOs.Kernel

variable {β : Type}

/-! ### The used ring -/

/-- The slots of a ring come round with a 16-bit index. -/
theorem num_dvd : NUM ∣ 2 ^ 16 := ⟨8192, by decide⟩

/-- The number of entries that are left. -/
@[simp] theorem length_unconsumed (d : Disk β) :
    (unconsumed d).length = Ring.size d.usedIdx d.usedRingIdx :=
  Ring.entries_length ..

/-- No entry is left exactly when the indices agree. -/
theorem unconsumed_eq_nil_iff (d : Disk β) :
    unconsumed d = [] ↔ d.usedIdx = d.usedRingIdx := by
  rw [← List.length_eq_zero_iff, length_unconsumed, Ring.size_eq_zero_iff]

/-- The slot at `used_idx` holds the first entry. -/
theorem unconsumed_cons {d : Disk β} (h : unconsumed d ≠ []) :
    unconsumed d = d.usedRing (d.usedIdx.toNat % NUM) ::
      unconsumed { d with usedIdx := d.usedIdx + 1#16 } :=
  Ring.entries_pop d.usedRing fun heq => h ((unconsumed_eq_nil_iff d).mpr heq)

/-- The device may fill its next slot while the ring is not full. -/
theorem unconsumed_usedPut {d : Disk β} (h : (unconsumed d).length < NUM) (head : Nat) :
    unconsumed (usedPut head d) = unconsumed d := by
  rw [length_unconsumed] at h
  exact Ring.entries_update num_dvd d.usedRing h (BitVec.ofNat 32 head)

/-- The bump of `used->idx` adds what is in the slot. -/
theorem unconsumed_publish {d : Disk β} (h : (unconsumed d).length < NUM) :
    unconsumed { d with usedRingIdx := d.usedRingIdx + 1#16 }
      = unconsumed d ++ [d.usedRing (d.usedRingIdx.toNat % NUM)] := by
  have hlt : Ring.size d.usedIdx d.usedRingIdx + 1 < 2 ^ 16 := by
    rw [length_unconsumed] at h
    unfold NUM at h
    omega
  exact Ring.entries_snoc d.usedRing hlt

/-! ### The invariant -/

/-- How many unconsumed entries the handler has loaded. -/
def loadedAt : IsrPc β → Nat
  | .idle | .test | .readId => 0
  | .checkStatus _ | .readB _ | .clear _ | .bump | .panicked => 1

/-- How many of them it has cleared the block of. -/
def clearedAt : IsrPc β → Nat
  | .bump => 1
  | _ => 0

/-- The steps from a program point to the return, with `n` entries left. -/
def isrLeft (n : Nat) : IsrPc β → Nat
  | .idle | .panicked => 0
  | .test => 6 * n + 1
  | .readId => 6 * n
  | .checkStatus _ => 6 * n - 1
  | .readB _ => 6 * n - 2
  | .clear _ => 6 * n - 3
  | .bump => 6 * n - 4

/-- What a program point of the handler means for the used ring. -/
def AtPc (d : Disk β) : IsrPc β → Prop
  | .idle => unconsumed d = []
  | .test => True
  | .readId | .bump => unconsumed d ≠ []
  | .checkStatus id | .readB id => ∃ e rest, unconsumed d = e :: rest ∧ id = e.toNat
  | .clear b => ∃ e rest, unconsumed d = e :: rest ∧ b = d.infoB e.toNat
  | .panicked => False

/-- The invariant of a run `es` of the handler from `s₀`. -/
structure IsrInv (s₀ : IsrRun β) (es : List IsrEvent) (s : IsrRun β) : Prop where
  room : (unconsumed s.io.disk).length ≤ NUM
  completed : ∀ id ∈ unconsumed s.io.disk, Completed s.io.disk id
  infoB : s.io.disk.infoB = s₀.io.disk.infoB
  atPc : AtPc s.io.disk s.io.isr
  /-- Each entry is consumed or in the ring, and the handler is at the first
  of those in the ring. -/
  past : ∃ past, past ++ unconsumed s.io.disk = unconsumed s₀.io.disk ++ published es ∧
    s.loaded = past ++ (unconsumed s.io.disk).take (loadedAt s.io.isr) ∧
    s.cleared.map some = (past ++ (unconsumed s.io.disk).take (clearedAt s.io.isr)).map
      fun id => s₀.io.disk.infoB id.toNat
  blkDisk : ∀ b, b ∈ s.cleared ∧ s.io.disk.blkDisk b = 0#32 ∨
    b ∉ s.cleared ∧ s.io.disk.blkDisk b = s₀.io.disk.blkDisk b
  steps : es.count .handler + isrLeft (unconsumed s.io.disk).length s.io.isr
    = 6 * (unconsumed s₀.io.disk ++ published es).length + 1

/-- The entries published in two parts of a run. -/
theorem published_append (es fs : List IsrEvent) :
    published (es ++ fs) = published es ++ published fs := by
  simp [published]

/-- A step of the handler publishes nothing. -/
theorem published_handler (es : List IsrEvent) : published (es ++ [.handler]) = published es := by
  rw [published_append]
  exact List.append_nil _

/-- The handler publishes nothing. -/
theorem published_replicate (n : Nat) : published (List.replicate n .handler) = [] := by
  simp [published]

/-- The invariant at the first test. -/
theorem isrInv_entry {s : IsrRun β} (h : IsrEntry s) : IsrInv s [] s := by
  obtain ⟨hisr, hroom, hcompleted, hloaded, hcleared⟩ := h
  refine ⟨hroom, hcompleted, rfl, ?_, ⟨[], ?_, ?_, ?_⟩, fun b => Or.inr ⟨?_, rfl⟩, ?_⟩
  · rw [hisr]
    trivial
  · simp [published]
  · rw [hloaded, hisr]
    rfl
  · rw [hcleared, hisr]
    rfl
  · simp [hcleared]
  · rw [hisr]
    simp [published, isrLeft]

namespace IsrInv

variable {s₀ s : IsrRun β} {es : List IsrEvent}

/-- At a program point past the load there is an entry. -/
theorem loadedAt_le (hinv : IsrInv s₀ es s) :
    loadedAt s.io.isr ≤ (unconsumed s.io.disk).length := by
  have hpc := hinv.atPc
  cases hisr : s.io.isr with
  | idle | test | readId => exact Nat.zero_le _
  | panicked =>
      rw [hisr] at hpc
      exact hpc.elim
  | bump =>
      rw [hisr] at hpc
      exact List.length_pos_iff.mpr hpc
  | checkStatus id | readB id | clear b =>
      rw [hisr] at hpc
      obtain ⟨e, rest, heq, -⟩ := hpc
      rw [heq]
      exact Nat.succ_le_succ (Nat.zero_le _)

/-- An entry that comes in costs six steps more. -/
theorem isrLeft_add (hinv : IsrInv s₀ es s) (hidle : s.io.isr ≠ .idle) (n : Nat) :
    isrLeft ((unconsumed s.io.disk).length + n) s.io.isr
      = isrLeft (unconsumed s.io.disk).length s.io.isr + 6 * n := by
  have hle := hinv.loadedAt_le
  have hpc := hinv.atPc
  cases hisr : s.io.isr with
  | idle => exact absurd hisr hidle
  | panicked =>
      rw [hisr] at hpc
      exact hpc.elim
  | test | readId =>
      simp only [isrLeft]
      omega
  | checkStatus id | readB id | clear b | bump =>
      rw [hisr] at hle
      simp only [isrLeft, loadedAt] at hle ⊢
      omega

/-- A step of the device. It adds entries at the end, and the handler's
memory stays. -/
theorem device (hinv : IsrInv s₀ es s) (hidle : s.io.isr ≠ .idle) {d : Disk β} {e : IsrEvent}
    {new : List Word} (hevent : e ≠ .handler) (hpub : published [e] = new)
    (hinfo : d.infoB = s.io.disk.infoB) (hblk : d.blkDisk = s.io.disk.blkDisk)
    (hnew : unconsumed d = unconsumed s.io.disk ++ new) (hroom : (unconsumed d).length ≤ NUM)
    (hcompleted : ∀ id ∈ unconsumed d, Completed d id) :
    IsrInv s₀ (es ++ [e]) { s with io := { s.io with disk := d } } := by
  have hle := hinv.loadedAt_le
  have hle' : clearedAt s.io.isr ≤ (unconsumed s.io.disk).length := by
    refine Nat.le_trans ?_ hle
    cases s.io.isr <;> simp [clearedAt, loadedAt]
  obtain ⟨past, hsplit, hloaded, hcleared⟩ := hinv.past
  refine ⟨hroom, hcompleted, hinfo.trans hinv.infoB, ?_, ⟨past, ?_, ?_, ?_⟩, ?_, ?_⟩
  -- The first entry of the ring is the same as before.
  · have hpc := hinv.atPc
    show AtPc d s.io.isr
    cases hisr : s.io.isr with
    | idle => exact absurd hisr hidle
    | test => trivial
    | panicked =>
        rw [hisr] at hpc
        exact hpc.elim
    | readId | bump =>
        rw [hisr] at hpc
        simp only [AtPc] at hpc ⊢
        rw [hnew]
        exact List.append_ne_nil_of_left_ne_nil hpc new
    | checkStatus id | readB id =>
        rw [hisr] at hpc
        obtain ⟨a, rest, heq, hid⟩ := hpc
        exact ⟨a, rest ++ new, by rw [hnew, heq, List.cons_append], hid⟩
    | clear b =>
        rw [hisr] at hpc
        obtain ⟨a, rest, heq, hb⟩ := hpc
        exact ⟨a, rest ++ new, by rw [hnew, heq, List.cons_append], by rw [hb, hinfo]⟩
  · show past ++ unconsumed d = _
    rw [hnew, published_append, hpub, ← List.append_assoc, hsplit, List.append_assoc]
  · show s.loaded = past ++ (unconsumed d).take (loadedAt s.io.isr)
    rw [hnew, List.take_append_of_le_length hle, hloaded]
  · show s.cleared.map some = (past ++ (unconsumed d).take (clearedAt s.io.isr)).map _
    rw [hnew, List.take_append_of_le_length hle', hcleared]
  · intro b
    show b ∈ s.cleared ∧ d.blkDisk b = 0#32 ∨ b ∉ s.cleared ∧ d.blkDisk b = _
    rw [hblk]
    exact hinv.blkDisk b
  · have hcount : (es ++ [e]).count .handler = es.count .handler := by
      rw [List.count_append, List.count_singleton, if_neg (by simpa using hevent), Nat.add_zero]
    have hsteps := hinv.steps
    show _ + isrLeft (unconsumed d).length s.io.isr = _
    rw [hcount, hnew, published_append, hpub, List.length_append, hinv.isrLeft_add hidle]
    simp only [List.length_append] at hsteps ⊢
    omega

/-- A step of the handler that only reads. `loads` is the entry it loads. -/
theorem goto [DecidableEq β] (hinv : IsrInv s₀ es s) {pc : IsrPc β} (loads : List Word)
    (hstep : isrStep s.io = { s.io with isr := pc }) (hloads : isrLoads s.io = loads)
    (hclears : isrClears s.io = []) (hpc : AtPc s.io.disk pc)
    (hcleared : clearedAt pc = clearedAt s.io.isr)
    (htake : (unconsumed s.io.disk).take (loadedAt pc)
      = (unconsumed s.io.disk).take (loadedAt s.io.isr) ++ loads)
    (hleft : isrLeft (unconsumed s.io.disk).length s.io.isr
      = isrLeft (unconsumed s.io.disk).length pc + 1) :
    IsrInv s₀ (es ++ [.handler])
      ⟨isrStep s.io, s.loaded ++ isrLoads s.io, s.cleared ++ isrClears s.io⟩ := by
  rw [hstep, hloads, hclears, List.append_nil]
  -- The entries consumed stay the same; only the one under way moves on.
  obtain ⟨past, hsplit, hloaded, hclear⟩ := hinv.past
  refine ⟨hinv.room, hinv.completed, hinv.infoB, hpc, ⟨past, ?_, ?_, ?_⟩, hinv.blkDisk, ?_⟩
  · rw [published_handler]
    exact hsplit
  · show s.loaded ++ loads = past ++ (unconsumed s.io.disk).take (loadedAt pc)
    rw [htake, hloaded, List.append_assoc]
  · show s.cleared.map some = (past ++ (unconsumed s.io.disk).take (clearedAt pc)).map _
    rw [hcleared]
    exact hclear
  · -- One step has been made, and one less is left.
    have hsteps := hinv.steps
    show _ + isrLeft (unconsumed s.io.disk).length pc = _
    rw [published_handler, List.count_append, List.count_singleton_self]
    omega

variable [DecidableEq β]

/-- `b->disk = 0` for the owner of the first entry. -/
theorem clear (hinv : IsrInv s₀ es s) {e : Word} {rest : List Word} {b : β}
    (hcons : unconsumed s.io.disk = e :: rest) (hb : s.io.disk.infoB e.toNat = some b)
    (hisr : s.io.isr = .clear (some b)) :
    IsrInv s₀ (es ++ [.handler])
      ⟨isrStep s.io, s.loaded ++ isrLoads s.io, s.cleared ++ isrClears s.io⟩ := by
  -- The entry stays the first one until the bump.
  obtain ⟨past, hsplit, hloaded, hclear⟩ := hinv.past
  rw [hisr, hcons] at hloaded hclear
  rw [hinv.infoB] at hb
  have hloads : isrLoads s.io = [] := by simp [isrLoads, hisr]
  have hclears : isrClears s.io = [b] := by simp [isrClears, hisr]
  have hstep : isrStep s.io = { s.io with
      isr := .bump
      disk := { s.io.disk with blkDisk := Function.update s.io.disk.blkDisk b 0#32 } } := by
    simp [isrStep, hisr]
  rw [hloads, hclears, hstep, List.append_nil]
  refine ⟨hinv.room, hinv.completed, hinv.infoB, ?_, ⟨past, ?_, ?_, ?_⟩, ?_, ?_⟩
  · show unconsumed s.io.disk ≠ []
    rw [hcons]
    exact List.cons_ne_nil e rest
  · rw [published_handler]
    exact hsplit
  · show s.loaded = past ++ (unconsumed s.io.disk).take 1
    rw [hcons]
    exact hloaded
  · show (s.cleared ++ [b]).map some = (past ++ (unconsumed s.io.disk).take 1).map _
    rw [hcons, List.map_append, hclear]
    simp [clearedAt, hb]
  · -- `b` is cleared now, and the others as before.
    intro x
    show x ∈ s.cleared ++ [b] ∧ Function.update s.io.disk.blkDisk b 0#32 x = 0#32 ∨
      x ∉ s.cleared ++ [b] ∧ Function.update s.io.disk.blkDisk b 0#32 x = _
    by_cases hx : x = b
    · subst hx
      exact Or.inl ⟨by simp, Function.update_self x _ _⟩
    · rw [Function.update_of_ne hx]
      simpa [hx] using hinv.blkDisk x
  · have hsteps := hinv.steps
    rw [hisr, hcons] at hsteps
    show _ + isrLeft (unconsumed s.io.disk).length .bump = _
    rw [published_handler, hcons, List.count_append, List.count_singleton_self]
    simp only [isrLeft, List.length_cons] at hsteps ⊢
    omega

/-- `disk.used_idx += 1`. The first entry is consumed. -/
theorem bump (hinv : IsrInv s₀ es s) (hisr : s.io.isr = .bump) :
    IsrInv s₀ (es ++ [.handler])
      ⟨isrStep s.io, s.loaded ++ isrLoads s.io, s.cleared ++ isrClears s.io⟩ := by
  have hpc := hinv.atPc
  rw [hisr] at hpc
  have hcons := unconsumed_cons hpc
  -- The first entry goes over to those that are past.
  obtain ⟨past, hsplit, hloaded, hclear⟩ := hinv.past
  rw [hisr, hcons] at hloaded hclear
  have hloads : isrLoads s.io = [] := by simp [isrLoads, hisr]
  have hclears : isrClears s.io = [] := by simp [isrClears, hisr]
  have hstep : isrStep s.io = { s.io with
      isr := .test
      disk := { s.io.disk with usedIdx := s.io.disk.usedIdx + 1#16 } } := by
    simp [isrStep, hisr]
  rw [hloads, hclears, hstep, List.append_nil, List.append_nil]
  refine ⟨?_, ?_, hinv.infoB, trivial,
    ⟨past ++ [s.io.disk.usedRing (s.io.disk.usedIdx.toNat % NUM)], ?_, ?_, ?_⟩, hinv.blkDisk, ?_⟩
  · have hroom := hinv.room
    rw [hcons, List.length_cons] at hroom
    exact Nat.le_of_succ_le hroom
  · intro id hid
    refine hinv.completed id ?_
    rw [hcons]
    exact List.mem_cons_of_mem _ hid
  · rw [published_handler, List.append_assoc, List.singleton_append, ← hcons]
    exact hsplit
  · rw [hloaded]
    simp [loadedAt]
  · rw [hclear]
    simp [clearedAt]
  · have hsteps := hinv.steps
    rw [hisr, hcons] at hsteps
    rw [published_handler, List.count_append, List.count_singleton_self]
    simp only [isrLeft, List.length_cons] at hsteps ⊢
    omega

/-- A step of the handler. Its loads come from the first entry of the ring,
which stays there until the bump. -/
theorem handler (hinv : IsrInv s₀ es s) (hidle : s.io.isr ≠ .idle) :
    IsrInv s₀ (es ++ [.handler])
      ⟨isrStep s.io, s.loaded ++ isrLoads s.io, s.cleared ++ isrClears s.io⟩ := by
  have hpc := hinv.atPc
  cases hisr : s.io.isr with
  | idle => exact absurd hisr hidle
  | panicked =>
      rw [hisr] at hpc
      exact hpc.elim
  | test =>
      -- An empty ring ends the loop.
      by_cases hnil : unconsumed s.io.disk = []
      · have hstep : isrStep s.io = { s.io with isr := .idle } := by
          simp [isrStep, hisr, (unconsumed_eq_nil_iff s.io.disk).mp hnil]
        refine hinv.goto [] hstep (by simp [isrLoads, hisr]) (by simp [isrClears, hisr]) hnil
          (by rw [hisr]; rfl) (by rw [hisr]; rfl) ?_
        rw [hisr, hnil]
        rfl
      · have hne : s.io.disk.usedIdx ≠ s.io.disk.usedRingIdx :=
          fun heq => hnil ((unconsumed_eq_nil_iff s.io.disk).mpr heq)
        have hstep : isrStep s.io = { s.io with isr := .readId } := by
          simp [isrStep, hisr, hne]
        exact hinv.goto [] hstep (by simp [isrLoads, hisr]) (by simp [isrClears, hisr]) hnil
          (by rw [hisr]; rfl) (by rw [hisr]; rfl) (by rw [hisr]; rfl)
  | readId =>
      rw [hisr] at hpc
      have hcons := unconsumed_cons hpc
      have hstep : isrStep s.io = { s.io with
          isr := .checkStatus (s.io.disk.usedRing (s.io.disk.usedIdx.toNat % NUM)).toNat } := by
        simp [isrStep, hisr]
      have hloads : isrLoads s.io = [s.io.disk.usedRing (s.io.disk.usedIdx.toNat % NUM)] := by
        simp [isrLoads, hisr]
      refine hinv.goto _ hstep hloads (by simp [isrClears, hisr]) ⟨_, _, hcons, rfl⟩
        (by rw [hisr]; rfl) ?_ ?_
      · rw [hisr, hcons]
        rfl
      · rw [hisr, hcons]
        simp only [isrLeft, List.length_cons]
        omega
  | checkStatus id =>
      rw [hisr] at hpc
      obtain ⟨e, rest, hcons, rfl⟩ := hpc
      -- The status of each entry is zero, so there is no panic.
      have hstatus := (hinv.completed e (by rw [hcons]; exact List.mem_cons_self)).1
      have hstep : isrStep s.io = { s.io with isr := .readB e.toNat } := by
        simp [isrStep, hisr, hstatus]
      refine hinv.goto [] hstep (by simp [isrLoads, hisr]) (by simp [isrClears, hisr])
        ⟨e, rest, hcons, rfl⟩ (by rw [hisr]; rfl) ?_ ?_
      · rw [hisr, List.append_nil]
        rfl
      · rw [hisr, hcons]
        simp only [isrLeft, List.length_cons]
        omega
  | readB id =>
      rw [hisr] at hpc
      obtain ⟨e, rest, hcons, rfl⟩ := hpc
      have hstep : isrStep s.io = { s.io with isr := .clear (s.io.disk.infoB e.toNat) } := by
        simp [isrStep, hisr]
      refine hinv.goto [] hstep (by simp [isrLoads, hisr]) (by simp [isrClears, hisr])
        ⟨e, rest, hcons, rfl⟩ (by rw [hisr]; rfl) ?_ ?_
      · rw [hisr, List.append_nil]
        rfl
      · rw [hisr, hcons]
        simp only [isrLeft, List.length_cons]
        omega
  | clear b =>
      rw [hisr] at hpc
      obtain ⟨e, rest, hcons, rfl⟩ := hpc
      -- The slot of each entry has an owner.
      obtain ⟨-, b, hb⟩ := hinv.completed e (by rw [hcons]; exact List.mem_cons_self)
      have hclear : s.io.isr = .clear (some b) := by rw [hisr, hb]
      exact hinv.clear hcons hb hclear
  | bump => exact hinv.bump hisr

/-- Every step keeps the invariant. -/
theorem step (hinv : IsrInv s₀ es s) {e : IsrEvent} {s' : IsrRun β} (h : IsrRunStep s e s') :
    IsrInv s₀ (es ++ [e]) s' := by
  obtain ⟨hidle, h⟩ := h
  cases e with
  | handler =>
      obtain rfl := h
      exact hinv.handler hidle
  | writeStatus i status =>
      obtain ⟨hzero, rfl⟩ := h
      refine hinv.device hidle (by simp) rfl rfl rfl (List.append_nil _).symm hinv.room ?_
      intro id hid
      obtain ⟨hstatus, hb⟩ := hinv.completed id hid
      refine ⟨?_, hb⟩
      -- A status byte that is overwritten is that of no entry, or it is zero again.
      show Function.update s.io.disk.infoStatus i status id.toNat = 0#8
      by_cases hi : id.toNat = i
      · rw [hi, Function.update_self]
        exact hzero id hid hi
      · rw [Function.update_of_ne hi]
        exact hstatus
  | append id =>
      obtain ⟨hroom, rfl⟩ := h
      -- The new element stands behind the entries, which stay the same.
      have hsame := unconsumed_usedPut hroom id.toNat
      refine hinv.device hidle (by simp) rfl rfl rfl ?_ ?_ ?_
      · rw [hsame]
        exact (List.append_nil _).symm
      · rw [hsame]
        exact hinv.room
      · rw [hsame]
        exact hinv.completed
  | publish id =>
      obtain ⟨hroom, hid, hslot, rfl⟩ := h
      -- The count makes it one of the entries.
      have hnew := unconsumed_publish hroom
      rw [hslot] at hnew
      refine hinv.device hidle (by simp) rfl rfl rfl hnew ?_ ?_
      · rw [hnew, List.length_append]
        exact hroom
      · intro x hx
        rw [hnew, List.mem_append, List.mem_singleton] at hx
        rcases hx with hx | rfl
        · exact hinv.completed x hx
        · exact hid

end IsrInv

variable [DecidableEq β] {s₀ s : IsrRun β} {es : List IsrEvent}

/-- The invariant holds after every schedule. -/
theorem isrInv_run (h₀ : IsrEntry s₀) (hrun : (isrSystem β).Run s₀ es s) : IsrInv s₀ es s := by
  induction hrun with
  | nil => exact isrInv_entry h₀
  | snoc _ hstep ih => exact ih.step hstep

/-- The handler returns when it is left to run. Induction on the steps that
are left; each one leaves one fewer. -/
theorem isr_returns (n : Nat) :
    ∀ {es : List IsrEvent} {s : IsrRun β}, IsrInv s₀ es s →
      isrLeft (unconsumed s.io.disk).length s.io.isr = n →
      ∃ k t, (isrSystem β).Run s (List.replicate k .handler) t ∧ t.io.isr = .idle := by
  induction n with
  | zero =>
      intro es s hinv hleft
      refine ⟨0, s, .nil s, ?_⟩
      -- Of all places only `idle` has no step left.
      have hle := hinv.loadedAt_le
      have hpc := hinv.atPc
      cases hisr : s.io.isr with
      | idle => rfl
      | panicked =>
          rw [hisr] at hpc
          exact hpc.elim
      | readId =>
          rw [hisr] at hleft hpc
          have hlen := List.length_pos_iff.mpr hpc
          simp only [isrLeft] at hleft
          omega
      | test | checkStatus id | readB id | clear b | bump =>
          rw [hisr] at hleft hle
          simp only [isrLeft, loadedAt] at hleft hle
          omega
  | succ n ih =>
      intro es s hinv hleft
      have hidle : s.io.isr ≠ .idle := by
        intro hisr
        rw [hisr] at hleft
        exact absurd hleft (Nat.succ_ne_zero n).symm
      have hinv' := hinv.handler hidle
      have hsteps := hinv.steps
      have hsteps' := hinv'.steps
      rw [published_handler, List.count_append, List.count_singleton_self] at hsteps'
      obtain ⟨k, t, hrun, hdone⟩ := ih hinv' (by omega)
      have hstep : (isrSystem β).step s .handler
          ⟨isrStep s.io, s.loaded ++ isrLoads s.io, s.cleared ++ isrClears s.io⟩ := ⟨hidle, rfl⟩
      exact ⟨k + 1, t, (System.Run.single hstep).append hrun, hdone⟩

/-- One run of `virtio_disk_isr`, for any `used_idx` and any schedule in
which the device goes on and keeps to `NUM` unconsumed entries.

* It does not panic, and it finds no null `b`.
* It takes at most six steps for each entry and one more, and left to run it
  returns.
* It loads the entries in the order of their publication, none of them twice.
* When it returns it has loaded them all and `used_idx` is `used->idx`. It
  has cleared `disk` for the owners of these entries, in that order, and for
  no other block. -/
theorem isr_consumes (s₀ : IsrRun β) (h₀ : (isrSystem β).init s₀) (es : List IsrEvent)
    (s : IsrRun β) (hrun : (isrSystem β).Run s₀ es s) :
    (s.io.isr ≠ .panicked ∧ s.io.isr ≠ .clear none) ∧
    (es.count .handler ≤ 6 * (unconsumed s₀.io.disk ++ published es).length + 1 ∧
      ∃ k t, (isrSystem β).Run s (List.replicate k .handler) t ∧ t.io.isr = .idle) ∧
    s.loaded <+: unconsumed s₀.io.disk ++ published es ∧
    (s.io.isr = .idle →
      s.loaded = unconsumed s₀.io.disk ++ published es ∧
      s.io.disk.usedIdx = s.io.disk.usedRingIdx ∧
      s.cleared.map some = s.loaded.map (fun id => s₀.io.disk.infoB id.toNat) ∧
      ∀ b, (b ∈ s.cleared → s.io.disk.blkDisk b = 0#32) ∧
        (b ∉ s.cleared → s.io.disk.blkDisk b = s₀.io.disk.blkDisk b)) := by
  have hinv := isrInv_run h₀ hrun
  have hpc := hinv.atPc
  obtain ⟨past, hsplit, hloaded, hcleared⟩ := hinv.past
  refine ⟨⟨?_, ?_⟩, ⟨?_, isr_returns _ hinv rfl⟩, ?_, ?_⟩
  · intro hisr
    rw [hisr] at hpc
    exact hpc
  · intro hisr
    rw [hisr] at hpc
    obtain ⟨e, rest, hcons, hnone⟩ := hpc
    obtain ⟨-, b, hb⟩ := hinv.completed e (by rw [hcons]; exact List.mem_cons_self)
    rw [hb] at hnone
    exact absurd hnone (by simp)
  · have hsteps := hinv.steps
    omega
  · rw [hloaded, ← hsplit]
    exact List.prefix_append_right_inj past |>.mpr (List.take_prefix _ _)
  · intro hisr
    -- At the return the ring is empty, so all entries are past.
    rw [hisr] at hpc hloaded hcleared
    have hnil : unconsumed s.io.disk = [] := hpc
    rw [hnil, List.append_nil] at hsplit
    rw [hnil, List.take_nil, List.append_nil] at hloaded hcleared
    refine ⟨hloaded.trans hsplit, (unconsumed_eq_nil_iff _).mp hnil, ?_, fun b => ?_⟩
    · rw [hcleared, hloaded]
    · rcases hinv.blkDisk b with ⟨hmem, hzero⟩ | ⟨hmem, hsame⟩
      · exact ⟨fun _ => hzero, fun hnot => absurd hmem hnot⟩
      · exact ⟨fun hin => absurd hin hmem, fun _ => hsame⟩

/-- Two entries on either side of the wrap-around, and a request for each of
two blocks. -/
def wrapEntry : IsrRun Bool where
  io :=
    { disk :=
        { table := ⟨fun _ => ⟨.null, 0#32, 0#16, 0#16⟩, fun _ => false⟩
          availIdx := 1#16
          availRing := fun _ => 0#16
          usedRingIdx := 1#16
          usedRing := fun k => if k = 7 then 3#32 else 0#32
          infoB := fun i => some (i == 3)
          infoStatus := fun _ => 0#8
          usedIdx := 65535#16
          ops := fun _ => ⟨0#32, 0#32, 0#64⟩
          blkDisk := fun _ => 1#32 }
      lastAvail := 1#16
      inFlight := []
      isr := .test
      slotCall := fun _ => 0
      completed := fun _ => 0 }
  loaded := []
  cleared := []

/-- The main result over that wrap-around. -/
theorem wrapEntry_consumed :
    ∃ es s, (isrSystem Bool).Run wrapEntry es s ∧ s.io.isr = .idle ∧
      s.loaded = [3#32, 0#32] ∧ s.cleared.map some = [some true, some false] ∧
      s.io.disk.usedIdx = s.io.disk.usedRingIdx := by
  have hinit : (isrSystem Bool).init wrapEntry :=
    ⟨rfl, by decide, fun _ _ => ⟨rfl, _, rfl⟩, rfl, rfl⟩
  obtain ⟨-, ⟨-, k, t, hrun, hidle⟩, -⟩ :=
    isr_consumes wrapEntry hinit [] wrapEntry (System.Run.nil wrapEntry)
  obtain ⟨-, -, -, hdone⟩ := isr_consumes wrapEntry hinit _ t hrun
  obtain ⟨hloaded, hidx, hcleared, -⟩ := hdone hidle
  have hall : t.loaded = [3#32, 0#32] := by
    rw [hloaded, published_replicate]
    decide
  refine ⟨_, t, hrun, hidle, hall, ?_, hidx⟩
  rw [hcleared, hall]
  rfl

end MiniRiscvOs.Proofs
