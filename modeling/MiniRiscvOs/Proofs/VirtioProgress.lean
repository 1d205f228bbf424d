import MiniRiscvOs.Proofs.Virtio

/-!
# `MiniRiscvOs.Proofs.VirtioProgress`: the block driver cannot get stuck

From each reachable state each call of `virtio_disk_rw` can still return,
with steps of tasks, device and handler alone (`virtioDriver_progress`). So
no interleaving ends in a deadlock: neither on the lock, nor on descriptors,
nor on a completion that never comes.

* `rank` measures how far the driving task is from `lock_free`, and `served`
  how far the device and the handler are from idle.
* `Phase.progress`: some step on takes the measure down. While the driver
  waits it is a step of the device or of the handler.
* A task that waits for the lock goes on after the driving one, since the lock
  is taken only while a task drives (`LockHeld`).
-/

set_option autoImplicit false

namespace MiniRiscvOs.Proofs

open MiniRiscvOs.Lib
open MiniRiscvOs.Kernel

variable {ι β : Type}

/-- A step of a task in its call, of the handler or of the device. -/
def Onward : VirtioEvent ι β → Prop
  | .task _ | .isr | .device _ => True
  | .setBlockno _ _ | .call _ _ _ => False

/-! ### The measure -/

/-- How far a program point is from `lock_free`. -/
def rank : RwPc → Nat
  | .allocTest idx i => 101 + (3 - idx.length) * 10 + (idx.length - i)
  | .allocTake idx _ => 100 + (3 - idx.length) * 10
  | .format _ k => 65 + (30 - k)
  | .ring _ => 64
  | .bump _ => 63
  | .notify _ => 62
  | .wait _ => 61
  | .clearB _ => 60
  | .chainFlags i => 14 + 20 * (2 - i)
  | .chainNext i _ => 13 + 20 * (2 - i)
  | .freeTest i _ _ => 12 + 20 * (2 - i)
  | .freeStmt i _ _ k => 1 + 20 * (2 - i) + (10 - k)
  | .acquire | .rollback _ | .unlock | .panicked _ => 0

/-- How far the handler is from idle, with an entry to consume or without. -/
def isrRank (work : Bool) : IsrPc β → Nat
  | .idle => if work then 10 else 0
  | .test => if work then 9 else 1
  | .readId => 8
  | .checkStatus _ => 7
  | .readB _ => 6
  | .clear _ => 5
  | .bump => 4
  | .panicked => 0

/-- How far the device is with a request. -/
def stageRank : DevStage → Nat
  | .taken => 19
  | .transferred => 18
  | .statusWritten => 17
  | .appended => 16

/-- How far device and handler are from idle. -/
def served (io : DiskIo β) : Nat :=
  if io.lastAvail ≠ io.disk.availIdx then 20
  else match io.inFlight with
    | r :: _ => stageRank r.stage
    | [] => isrRank (io.disk.usedIdx ≠ io.disk.usedRingIdx) io.isr

/-- A bound for the handler. -/
theorem isrRank_le (work : Bool) (pc : IsrPc β) : isrRank work pc ≤ 10 := by
  cases work <;> cases pc <;> simp [isrRank]

/-- A request that the device has yet to take. -/
theorem served_published {io : DiskIo β} (h : io.lastAvail ≠ io.disk.availIdx) :
    served io = 20 := if_pos h

/-- A request in the device, by its stage. -/
theorem served_inDevice {io : DiskIo β} {r : InFlight} (htaken : io.lastAvail = io.disk.availIdx)
    (hflight : io.inFlight = [r]) : served io = stageRank r.stage := by
  unfold served
  rw [if_neg (not_not.mpr htaken), hflight]

/-- With nothing at the device what is left is the work of the handler. -/
theorem served_handler {io : DiskIo β} (htaken : io.lastAvail = io.disk.availIdx)
    (hnil : io.inFlight = []) :
    served io = isrRank (io.disk.usedIdx ≠ io.disk.usedRingIdx) io.isr := by
  unfold served
  rw [if_neg (not_not.mpr htaken), hnil]

/-- A bound for all stages. -/
theorem served_le (io : DiskIo β) : served io ≤ 20 := by
  unfold served
  split
  · exact Nat.le_refl 20
  · split
    · rename_i r _ _
      cases r.stage <;> decide
    · exact (isrRank_le _ _).trans (by decide)

/-- A quiet driver has only the handler to wait for. -/
theorem Quiet.served_eq {io : DiskIo β} (h : Quiet io) : served io = isrRank false io.isr := by
  rw [served_handler h.taken h.inFlight]
  simp [h.consumed]

section Steps

variable [DecidableEq β]

/-- Where nothing is under way and the handler has come in, it leaves. -/
theorem Quiet.isr_progress {io : DiskIo β} (h : Quiet io) (hisr : io.isr ≠ .idle) :
    served (Kernel.isrStep io) < served io := by
  have htest : io.isr = .test := h.isr.resolve_left hisr
  have hstep : Kernel.isrStep io = { io with isr := .idle } := by
    simp [Kernel.isrStep, htest, h.consumed]
  have hquiet : Quiet { io with isr := .idle } := ⟨h.taken, h.inFlight, h.consumed, Or.inl rfl⟩
  rw [hstep, h.served_eq, hquiet.served_eq, htest]
  exact Nat.zero_lt_one

/-- A quiet driver that is not at `lock_free` has a statement to run. -/
theorem Phase.rank_lt {c : RwCall β} {io : DiskIo β} {pc : RwPc} (h : Phase c io pc)
    (hpc : pc ≠ .unlock) (hwait : ∀ idx, pc = .wait idx → io.disk.blkDisk c.b ≠ 1#32) :
    rank (Kernel.rwStep c io pc).2 < rank pc := by
  cases pc with
  | acquire | rollback idx | panicked msg => exact h.elim
  | unlock => exact absurd rfl hpc
  | allocTest idx i =>
      obtain ⟨⟨hidx, hlen, hi⟩, hquiet, huse, -⟩ := h
      -- A free descriptor is found at once: those behind the ones taken are free.
      have hnum : i < NUM := by unfold NUM; omega
      rw [Kernel.rwStep, if_neg (Nat.ne_of_lt hnum)]
      split
      · show 100 + (3 - idx.length) * 10 < 101 + (3 - idx.length) * 10 + (idx.length - i)
        omega
      · rename_i hfree
        have hlt : i < idx.length := by
          by_contra hge
          exact hfree ((huse i hnum).mpr (by omega))
        show 101 + (3 - idx.length) * 10 + (idx.length - (i + 1)) <
          101 + (3 - idx.length) * 10 + (idx.length - i)
        omega
  | allocTake idx i =>
      obtain ⟨⟨-, hlen, -⟩, -⟩ := h
      have hlen' : (idx ++ [i]).length = idx.length + 1 := by simp
      show rank (if (idx ++ [i]).length = 3 then _ else _) < 100 + (3 - idx.length) * 10
      split
      · show 65 + (30 - 0) < _
        omega
      · rename_i hne
        show 101 + (3 - (idx ++ [i]).length) * 10 + ((idx ++ [i]).length - 0) < _
        rw [hlen'] at hne ⊢
        omega
  | format idx k =>
      rw [Kernel.rwStep]
      have hlen : (rwFormat c idx).length = 19 := rfl
      cases hk : (rwFormat c idx)[k]? with
      | some stmt =>
          have hlt := (List.getElem?_eq_some_iff.mp hk).1
          show 65 + (30 - (k + 1)) < 65 + (30 - k)
          omega
      | none =>
          show 64 < 65 + (30 - k)
          omega
  | ring idx | bump idx | notify idx => exact Nat.lt_succ_self _
  | wait idx =>
      show rank (if io.disk.blkDisk c.b = 1#32 then _ else _) < 61
      rw [if_neg (hwait idx rfl)]
      exact Nat.lt_succ_self _
  | clearB idx =>
      obtain ⟨rfl, -⟩ := h
      show 14 + 20 * (2 - 0) < 60
      decide
  | chainFlags i | chainNext i flag => exact Nat.add_lt_add_right (Nat.lt_succ_self _) _
  | freeTest i flag nxt =>
      obtain ⟨hi, -, huse, -⟩ := h
      have hnum : i < NUM := by unfold NUM; omega
      -- The chain is in use, so `free_desc` gets to its statements.
      have hfree : ¬ io.disk.table.free i = true := by
        rw [huse i hnum]
        omega
      rw [Kernel.rwStep, if_neg (Nat.not_le.mpr hnum), if_neg hfree]
      show 1 + 20 * (2 - i) + (10 - 0) < 12 + 20 * (2 - i)
      omega
  | freeStmt i flag nxt k =>
      obtain ⟨hi, -, -, -, -, -, hflag, hnxt⟩ := h
      rw [Kernel.rwStep]
      cases hk : (freeDescStmts (α := Ptr β) i)[k]? with
      | some stmt =>
          have hlen : (freeDescStmts (α := Ptr β) i).length = 5 := rfl
          have hlt := (List.getElem?_eq_some_iff.mp hk).1
          show 1 + 20 * (2 - i) + (10 - (k + 1)) < 1 + 20 * (2 - i) + (10 - k)
          omega
      | none =>
          -- A chain of three is left in two rounds.
          show rank (if flag &&& vringDescFNext ≠ 0#16 then _ else _) < _
          split
          · rename_i hset
            have hlt := hflag.mp hset
            rw [hnxt hlt]
            show 14 + 20 * (2 - (i + 1)) < 1 + 20 * (2 - i) + (10 - k)
            omega
          · show 0 < 1 + 20 * (2 - i) + (10 - k)
            omega

omit [DecidableEq β] in
/-- With no request of its own the device can only take one. -/
theorem take_of_devStep {io io' : DiskIo β} {m : DevMove} (hnil : io.inFlight = [])
    (hstep : DevStep io m io') : m = .take := by
  cases m with
  | take => rfl
  | transfer k | writeStatus k | append k | bump k =>
      obtain ⟨r, hr, -⟩ := hstep
      simp [hnil] at hr

omit [DecidableEq β] in
/-- Each move of the device takes the request on. -/
theorem Served.dev_nearer {c : RwCall β} {io io' : DiskIo β} {m : DevMove}
    (hsub : Submitted c io.disk) (h : Served c io) (hstep : DevStep io m io') :
    served io' < served io := by
  obtain ⟨q, hq, hstatus⟩ := hsub.statusAt
  cases h with
  | published taken inFlight consumed isr head slot disk completed =>
      obtain rfl := take_of_devStep inFlight hstep
      obtain ⟨hne, rfl⟩ := hstep
      rw [served_published hne]
      have hlt : stageRank .taken < 20 := by decide
      exact lt_of_eq_of_lt (served_inDevice taken (congrArg (· ++ [_]) inFlight)) hlt
  | inDevice stage taken inFlight consumed isr used disk completed =>
      -- The only place in the list is the first.
      have hplace : ∀ {k : Nat} {r : InFlight}, io.inFlight[k]? = some r →
          k = 0 ∧ r = ⟨0, stage, c.id⟩ := by
        intro k r hr
        rw [inFlight] at hr
        cases k with
        | zero => exact ⟨rfl, by simpa using hr.symm⟩
        | succ k => simp at hr
      have hnew : ∀ (io' : DiskIo β) (stage' : DevStage), io'.lastAvail = io'.disk.availIdx →
          io'.inFlight = io.inFlight.set 0 ⟨0, stage', c.id⟩ → served io' = stageRank stage' := by
        intro io' stage' htaken hflight
        rw [inFlight] at hflight
        exact served_inDevice htaken hflight
      rw [served_inDevice taken inFlight]
      cases m with
      | take => exact absurd taken hstep.1
      | transfer k =>
          obtain ⟨r, hr, hstage, rfl⟩ := hstep
          obtain ⟨rfl, rfl⟩ := hplace hr
          obtain rfl : stage = .taken := hstage
          exact lt_of_eq_of_lt (hnew _ .transferred taken rfl) (Nat.lt_succ_self _)
      | writeStatus k =>
          obtain ⟨r, hr, hstage, hstep⟩ := hstep
          obtain ⟨rfl, rfl⟩ := hplace hr
          obtain rfl : stage = .transferred := hstage
          obtain rfl := hstep q 0 hq hstatus
          exact lt_of_eq_of_lt (hnew _ .statusWritten taken rfl) (Nat.lt_succ_self _)
      | append k =>
          obtain ⟨r, hr, hstage, -, rfl⟩ := hstep
          obtain ⟨rfl, rfl⟩ := hplace hr
          obtain rfl : stage = .statusWritten := hstage
          exact lt_of_eq_of_lt (hnew _ .appended taken rfl) (Nat.lt_succ_self _)
      | bump k =>
          obtain ⟨r, hr, hstage, rfl⟩ := hstep
          obtain ⟨rfl, rfl⟩ := hplace hr
          obtain rfl : stage = .appended := hstage
          have hnil : io.inFlight.eraseIdx 0 = [] := by simp [inFlight]
          refine lt_of_eq_of_lt (served_handler taken hnil) ?_
          exact Nat.lt_of_le_of_lt (isrRank_le _ _) (show 10 < 16 by decide)
  | used taken inFlight | cleared taken inFlight =>
      obtain rfl := take_of_devStep inFlight hstep
      exact absurd taken hstep.1
  | done quiet => exact absurd hstep (quiet.not_devStep m)

/-- With an entry to consume each step of the handler takes it on. -/
theorem Served.isr_nearer {c : RwCall β} {io : DiskIo β} (hsub : Submitted c io.disk)
    (h : Served c io) (hne : io.disk.usedIdx ≠ io.disk.usedRingIdx) :
    served (Kernel.isrStep io) < served io := by
  cases h with
  | published _ _ consumed | inDevice _ _ _ consumed => exact absurd consumed hne
  | done quiet => exact absurd quiet.consumed hne
  | used taken inFlight consumed used isr disk completed =>
      have hold : ∀ io' : DiskIo β, io'.lastAvail = io'.disk.availIdx →
          io'.inFlight = io.inFlight → io'.disk.usedIdx = io.disk.usedIdx →
          io'.disk.usedRingIdx = io.disk.usedRingIdx → served io' = isrRank true io'.isr := by
        intro io' htaken hflight hused hring
        rw [served_handler htaken (hflight.trans inFlight)]
        simp [hused, hring, hne]
      have hio : served io = isrRank true io.isr := hold io taken rfl rfl rfl
      -- One case for each statement of the handler up to `b->disk = 0`.
      rw [hio]
      rcases isr with h | h | h | h | h | h <;> rw [h]
      · have heq : Kernel.isrStep io = { io with isr := .test } := by
          simp [Kernel.isrStep, h]
        rw [heq]
        exact lt_of_eq_of_lt (hold _ taken rfl rfl rfl) (Nat.lt_succ_self _)
      · have heq : Kernel.isrStep io = { io with isr := .readId } := by
          simp [Kernel.isrStep, h, hne]
        rw [heq]
        exact lt_of_eq_of_lt (hold _ taken rfl rfl rfl) (Nat.lt_succ_self _)
      · have heq : Kernel.isrStep io = { io with isr := .checkStatus 0 } := by
          simp [Kernel.isrStep, h, used]
        rw [heq]
        exact lt_of_eq_of_lt (hold _ taken rfl rfl rfl) (Nat.lt_succ_self _)
      · have heq : Kernel.isrStep io = { io with isr := .readB 0 } := by
          simp [Kernel.isrStep, h, hsub.status]
        rw [heq]
        exact lt_of_eq_of_lt (hold _ taken rfl rfl rfl) (Nat.lt_succ_self _)
      · have heq : Kernel.isrStep io = { io with isr := .clear (some c.b) } := by
          simp [Kernel.isrStep, h, hsub.infoB]
        rw [heq]
        exact lt_of_eq_of_lt (hold _ taken rfl rfl rfl) (Nat.lt_succ_self _)
      · have heq : Kernel.isrStep io = { io with
            isr := .bump
            disk := { io.disk with blkDisk := Function.update io.disk.blkDisk c.b 0#32 } } := by
          simp [Kernel.isrStep, h]
        rw [heq]
        exact lt_of_eq_of_lt (hold _ taken rfl rfl rfl) (Nat.lt_succ_self _)
  | cleared taken inFlight consumed isr disk completed =>
      have heq : Kernel.isrStep io = { io with
          isr := .test
          disk := { io.disk with usedIdx := io.disk.usedIdx + 1#16 } } := by
        simp [Kernel.isrStep, isr]
      have hquiet : Quiet (Kernel.isrStep io) := by
        rw [heq]
        exact ⟨taken, inFlight, consumed, Or.inr rfl⟩
      have hio : served io = isrRank true io.isr := by
        rw [served_handler taken inFlight]
        simp [hne]
      rw [hquiet.served_eq, hio, heq, isr]
      show (1 : Nat) < 4
      decide

/-- While the driver waits, the device can make a move, or the handler comes
in, or it has cleared `b->disk` and left. -/
theorem Served.progress {c : RwCall β} {io : DiskIo β} (hsub : Submitted c io.disk)
    (h : Served c io) :
    (∃ m io', DevStep io m io' ∧ served io' < served io) ∨
    served (Kernel.isrStep io) < served io ∨
    (io.isr = .idle ∧ io.disk.blkDisk c.b = 0#32) := by
  have hmove : ∀ m io', DevStep io m io' → ∃ m io', DevStep io m io' ∧ served io' < served io :=
    fun m io' hstep => ⟨m, io', hstep, h.dev_nearer hsub hstep⟩
  obtain ⟨q, hq, hstatus⟩ := hsub.statusAt
  cases id h with
  | published taken inFlight consumed isr head slot disk completed =>
      have hne : io.lastAvail ≠ io.disk.availIdx := by
        rw [← taken]
        bv_omega
      exact Or.inl (hmove .take _ ⟨hne, rfl⟩)
  | inDevice stage taken inFlight consumed isr used disk completed =>
      have hplace : io.inFlight[0]? = some ⟨0, stage, c.id⟩ := by rw [inFlight]; rfl
      -- One move for each stage of the request.
      left
      cases stage with
      | taken =>
          exact hmove (.transfer 0) (io.setStage 0 ⟨0, .taken, c.id⟩ .transferred)
            ⟨_, hplace, rfl, rfl⟩
      | transferred =>
          refine hmove (.writeStatus 0)
            { io.setStage 0 ⟨0, .transferred, c.id⟩ .statusWritten with
              disk := { io.disk with infoStatus := Function.update io.disk.infoStatus 0 0#8 } }
            ⟨_, hplace, rfl, fun q' i hq' hi => ?_⟩
          obtain rfl : q = q' := Option.some.inj (hq.symm.trans hq')
          obtain rfl : 0 = i := by simpa [hstatus] using hi
          rfl
      | statusWritten => exact hmove (.append 0) _ ⟨_, hplace, rfl, by simp [inFlight], rfl⟩
      | appended => exact hmove (.bump 0) _ ⟨_, hplace, rfl, rfl⟩
  | used _ _ consumed | cleared _ _ consumed =>
      have hne : io.disk.usedIdx ≠ io.disk.usedRingIdx := by
        rw [← consumed]
        bv_omega
      exact Or.inr (Or.inl (h.isr_nearer hsub hne))
  | done quiet disk completed =>
      by_cases hisr : io.isr = .idle
      · exact Or.inr (Or.inr ⟨hisr, disk⟩)
      · exact Or.inr (Or.inl (quiet.isr_progress hisr))

omit [DecidableEq β] in
/-- Once nothing is under way any more, `b->disk` has been cleared. -/
theorem Served.cleared_of_quiet {c : RwCall β} {io : DiskIo β} (h : Served c io)
    (hquiet : Quiet io) : io.disk.blkDisk c.b = 0#32 := by
  have hnext : ∀ x : BitVec 16, x + 1#16 ≠ x := by
    intro x
    bv_omega
  cases h with
  | published taken => exact absurd (taken.trans hquiet.taken.symm) (hnext _)
  | inDevice stage _ inFlight => simp [hquiet.inFlight] at inFlight
  | used _ _ consumed | cleared _ _ consumed =>
      exact absurd (consumed.trans hquiet.consumed.symm) (hnext _)
  | done _ disk _ => exact disk

/-- Short of `lock_free` with the handler idle, something can go on. -/
theorem Phase.progress {c : RwCall β} {io : DiskIo β} {pc : RwPc} (h : Phase c io pc)
    (hend : ¬ (pc = .unlock ∧ io.isr = .idle)) :
    (∃ m io', DevStep io m io' ∧ served io' < served io) ∨
    served (Kernel.isrStep io) < served io ∨
    (io.isr = .idle ∧ pc ≠ .unlock ∧ rank (Kernel.rwStep c io pc).2 < rank pc) := by
  by_cases hquiet : Quiet io
  · by_cases hisr : io.isr = .idle
    · have hunl : pc ≠ .unlock := fun hpc => hend ⟨hpc, hisr⟩
      refine Or.inr (Or.inr ⟨hisr, hunl, h.rank_lt hunl ?_⟩)
      rintro idx rfl
      rw [h.2.2.cleared_of_quiet hquiet]
      decide
    · exact Or.inr (Or.inl (hquiet.isr_progress hisr))
  · cases pc with
    -- The disk is busy only behind the notification.
    | notify idx | wait idx =>
        obtain ⟨-, hsub, hserved⟩ := h
        rcases hserved.progress hsub with hdev | hisr | ⟨hidle, hdisk⟩
        · exact Or.inl hdev
        · exact Or.inr (Or.inl hisr)
        · refine Or.inr (Or.inr ⟨hidle, by simp, ?_⟩)
          first
            | exact Nat.lt_succ_self _
            | (show rank (if io.disk.blkDisk c.b = 1#32 then _ else _) < 61
               rw [hdisk]
               exact Nat.lt_succ_self _)
    | acquire | rollback idx | panicked msg => exact h.elim
    | unlock => exact absurd h.1 hquiet
    | _ => exact absurd h.2.1 hquiet

end Steps

/-! ### The lock -/

section Runs

variable [DecidableEq ι] [DecidableEq β]

omit [DecidableEq ι] [DecidableEq β] in
/-- The lock is taken only while a task drives. -/
def LockHeld (s : VirtioState ι β) : Prop := s.vdiskLock ≠ 0#32 → ∃ t, Driving (s.task t)

/-- One step keeps the lock with its holder. -/
theorem LockHeld.step {s s' : VirtioState ι β} (hinv : DriverInv s) (h : LockHeld s)
    {e : VirtioEvent ι β} (hstep : VirtioStep s e s') : LockHeld s' := by
  cases e with
  | setBlockno b n =>
      obtain ⟨-, rfl⟩ := hstep
      exact h
  | isr =>
      obtain rfl := hstep
      exact h
  | device m =>
      obtain ⟨io, -, rfl⟩ := hstep
      exact h
  | call t b write =>
      obtain ⟨-, ht, rfl⟩ := hstep
      intro hlock
      obtain ⟨u, hu⟩ := h hlock
      exact ⟨u, (driving_call ht _ u).mpr hu⟩
  | task t =>
      obtain ⟨hisr, c, pc, ht, rfl⟩ := hstep
      by_cases hacq : pc = .acquire
      · subst hacq
        intro _
        -- The `amoswap` takes a free lock, and leaves the lock of another task
        -- alone.
        by_cases hfree : s.vdiskLock = 0#32
        · have ht' : (taskStep s t c .acquire).task t = .running c (.allocTest [] 0) := by
            simp [taskStep, hfree]
          exact ⟨t, driving_of_running ht' (by simp)⟩
        · obtain ⟨u, hu⟩ := h hfree
          have hut : u ≠ t := by
            rintro rfl
            rw [ht] at hu
            exact hu rfl
          refine ⟨u, ?_⟩
          show Driving (Function.update s.task t _ u)
          rw [Function.update_of_ne hut]
          exact hu
      · by_cases hunl : pc = .unlock
        · subst hunl
          exact fun hlock => absurd rfl hlock
        · have hnext := hinv.task ht hisr
          have hok := hinv.tasks t
          rw [ht] at hok
          have hphase := (hok.2.2.2 hacq).1.rwStep hunl hisr
          have hpc : (Kernel.rwStep c s.io pc).2 ≠ .acquire := by
            intro heq
            rw [heq] at hphase
            exact hphase
          have ht' : (taskStep s t c pc).task t = .running c (Kernel.rwStep c s.io pc).2 := by
            cases pc <;> first | exact Function.update_self .. | exact absurd rfl hacq |
              exact absurd rfl hunl
          exact fun _ => ⟨t, driving_of_running ht' hpc⟩

/-- It holds in every reachable state. -/
theorem lockHeld_reachable {s : VirtioState ι β} (hs : (virtioSystem ι β).Reachable s) :
    LockHeld s := by
  have hboth : DriverInv s ∧ LockHeld s := by
    refine System.invariant (M := virtioSystem ι β) (I := fun s => DriverInv s ∧ LockHeld s)
      ?_ ?_ hs
    · intro s hinit
      obtain ⟨-, -, -, -, -, -, -, -, -, hlock, -⟩ := id hinit
      exact ⟨driverInv_init hinit, fun h => absurd hlock h⟩
    · intro s e s' hinv hstep
      exact ⟨hinv.1.step hstep, hinv.2.step hinv.1 hstep⟩
  exact hboth.2

/-! ### Runs on -/

/-- Task `t` drives its call `c`, and the other tasks are as in `task`. -/
structure DrivenBy (task : ι → RwTask β) (t : ι) (c : RwCall β) (s : VirtioState ι β) : Prop where
  inv : DriverInv s
  running : ∃ pc, s.task t = .running c pc ∧ pc ≠ .acquire
  others : ∀ u, u ≠ t → s.task u = task u

/-- How far the call of task `t` is from `lock_free`. A step of the task may
put device and handler back by less than `32`. -/
def distance (t : ι) (s : VirtioState ι β) : Nat :=
  match s.task t with
  | .running _ pc => 32 * rank pc + served s.io
  | .outside => 0

/-- Short of `lock_free` with the handler idle, a step of the device, of the
handler or of the task takes it on. The handler comes in for an entry only. -/
theorem DrivenBy.onward {task : ι → RwTask β} {t : ι} {c : RwCall β} {s : VirtioState ι β}
    (h : DrivenBy task t c s) (hgoal : ¬ (s.task t = .running c .unlock ∧ s.io.isr = .idle)) :
    (∃ m s', VirtioStep s (.device m) s' ∧ DrivenBy task t c s' ∧ distance t s' < distance t s) ∨
    (served (isrStep s.io) < served s.io ∧ DrivenBy task t c { s with io := isrStep s.io } ∧
      distance t { s with io := isrStep s.io } < distance t s) ∨
    ∃ s', VirtioStep s (.task t) s' ∧ DrivenBy task t c s' ∧ distance t s' < distance t s := by
  obtain ⟨hinv, ⟨pc, ht, hacq⟩, hothers⟩ := h
  have hok := hinv.tasks t
  rw [ht] at hok
  have hphase := (hok.2.2.2 hacq).1
  have hdist : ∀ v : VirtioState ι β, ∀ qc, v.task t = .running c qc →
      distance t v = 32 * rank qc + served v.io := by
    intro v qc hv
    rw [distance, hv]
  -- One of the three parties goes on, and only this call moves.
  have hend : ¬ (pc = .unlock ∧ s.io.isr = .idle) := by
    rintro ⟨rfl, hisr⟩
    exact hgoal ⟨ht, hisr⟩
  rw [hdist s pc ht]
  rcases hphase.progress hend with ⟨m, io, hdev, hlt⟩ | hlt | ⟨hisr, hunl, hlt⟩
  · have hstep : VirtioStep s (.device m) { s with io := io } := ⟨io, hdev, rfl⟩
    refine Or.inl ⟨m, _, hstep, ⟨hinv.step hstep, ⟨pc, ht, hacq⟩, hothers⟩, ?_⟩
    exact lt_of_eq_of_lt (hdist _ pc ht) (Nat.add_lt_add_left hlt _)
  · have hstep : VirtioStep s .isr { s with io := isrStep s.io } := rfl
    refine Or.inr (Or.inl ⟨hlt, ⟨hinv.step hstep, ⟨pc, ht, hacq⟩, hothers⟩, ?_⟩)
    exact lt_of_eq_of_lt (hdist _ pc ht) (Nat.add_lt_add_left hlt _)
  · have hstep : VirtioStep s (.task t) (taskStep s t c pc) := ⟨hisr, c, pc, ht, rfl⟩
    have heq : taskStep s t c pc = { s with
        io := (Kernel.rwStep c s.io pc).1
        task := Function.update s.task t (.running c (Kernel.rwStep c s.io pc).2) } := by
      cases pc <;> first | rfl | exact absurd rfl hacq | exact absurd rfl hunl
    have hinv' := hinv.step hstep
    rw [heq] at hstep hinv'
    have hnext := hphase.rwStep hunl hisr
    have hacq' : (Kernel.rwStep c s.io pc).2 ≠ .acquire := by
      intro hbad
      rw [hbad] at hnext
      exact hnext
    have ht' : Function.update s.task t (.running c (Kernel.rwStep c s.io pc).2) t =
        .running c (Kernel.rwStep c s.io pc).2 := Function.update_self ..
    refine Or.inr (Or.inr ⟨_, hstep, ⟨hinv', ⟨_, ht', hacq'⟩, fun u hu => ?_⟩, ?_⟩)
    · exact (Function.update_of_ne hu ..).trans (hothers u hu)
    · refine lt_of_eq_of_lt (hdist _ _ ht') ?_
      have hle := served_le (Kernel.rwStep c s.io pc).1
      show 32 * rank (Kernel.rwStep c s.io pc).2 + served (Kernel.rwStep c s.io pc).1 < _
      omega

/-- A driving task gets to `lock_free`, with the handler idle. -/
theorem DrivenBy.run {task : ι → RwTask β} {t : ι} {c : RwCall β} {s : VirtioState ι β}
    (h : DrivenBy task t c s) :
    ∃ es s', (virtioSystem ι β).Run s es s' ∧ (∀ e ∈ es, Onward e) ∧ DrivenBy task t c s' ∧
      (s'.task t = .running c .unlock ∧ s'.io.isr = .idle) := by
  refine System.run_to_goal (distance t) (fun s h hgoal => ?_) h
  rcases h.onward hgoal with ⟨m, s', hstep, hnext⟩ | ⟨-, hnext⟩ | ⟨s', hstep, hnext⟩
  · exact ⟨.device m, s', trivial, hstep, hnext⟩
  · exact ⟨.isr, _, trivial, rfl, hnext⟩
  · exact ⟨.task t, s', trivial, hstep, hnext⟩

/-- A driving task returns from its call. Then the handler is idle and the lock is
free. -/
theorem DriverInv.finish {s : VirtioState ι β} (hinv : DriverInv s) {t : ι} {c : RwCall β}
    {pc : RwPc} (ht : s.task t = .running c pc) (hacq : pc ≠ .acquire) :
    ∃ es s', (virtioSystem ι β).Run s es s' ∧ (∀ e ∈ es, Onward e) ∧ DriverInv s' ∧
      c.id ∈ s'.returned ∧ s'.io.isr = .idle ∧ s'.vdiskLock = 0#32 ∧ s'.task t = .outside ∧
      ∀ u, u ≠ t → s'.task u = s.task u := by
  have hdriven : DrivenBy s.task t c s := ⟨hinv, ⟨pc, ht, hacq⟩, fun _ _ => rfl⟩
  obtain ⟨es, s', hrun, hes, ⟨hinv', -, hothers⟩, ht', hisr⟩ := hdriven.run
  have hstep : VirtioStep s' (.task t) (taskStep s' t c .unlock) := ⟨hisr, c, .unlock, ht', rfl⟩
  have hleave : (virtioSystem ι β).Run s (es ++ [.task t]) (taskStep s' t c .unlock) :=
    .snoc hrun hstep
  refine ⟨es ++ [.task t], _, hleave, fun e he => ?_, hinv'.step hstep,
    List.mem_cons_self, hisr, rfl, Function.update_self .., fun u hu => ?_⟩
  · rcases List.mem_append.mp he with he | he
    · exact hes e he
    · rw [List.mem_singleton.mp he]
      trivial
  · exact (Function.update_of_ne hu ..).trans (hothers u hu)

/-- With no task driving, the handler leaves. -/
theorem DriverInv.settle {s : VirtioState ι β} (hinv : DriverInv s)
    (hnone : ∀ u, ¬ Driving (s.task u)) :
    ∃ es s', (virtioSystem ι β).Run s es s' ∧ (∀ e ∈ es, Onward e) ∧ DriverInv s' ∧
      s'.io.isr = .idle ∧ s'.vdiskLock = s.vdiskLock ∧ s'.task = s.task := by
  obtain ⟨hquiet, -, -⟩ := hinv.rest hnone
  rcases hquiet.isr with hidle | htest
  · exact ⟨[], s, System.Run.nil s, by simp, hinv, hidle, rfl, rfl⟩
  · have hstep : VirtioStep s .isr { s with io := isrStep s.io } := rfl
    refine ⟨[.isr], _, System.Run.single hstep, fun e he => ?_, hinv.step hstep, ?_, rfl, rfl⟩
    · rw [List.mem_singleton.mp he]
      trivial
    · simp [isrStep, htest, hquiet.consumed]

/-- The block driver cannot get stuck: from each reachable state, and for
each call under way, whether it drives or waits for the lock, steps of tasks,
device and handler alone lead to its return. -/
theorem virtioDriver_progress (s : VirtioState ι β) (hs : (virtioSystem ι β).Reachable s)
    (t : ι) (c : RwCall β) (pc : RwPc) (ht : s.task t = .running c pc) :
    ∃ es s', (virtioSystem ι β).Run s es s' ∧ (∀ e ∈ es, Onward e) ∧ c.id ∈ s'.returned := by
  have hinv := driverInv_reachable hs
  have hheld := lockHeld_reachable hs
  by_cases hacq : pc = .acquire
  · subst hacq
    -- First the lock gets free: nobody drives, or the one who does returns.
    have hfree : ∃ es s₁, (virtioSystem ι β).Run s es s₁ ∧ (∀ e ∈ es, Onward e) ∧
        DriverInv s₁ ∧ s₁.io.isr = .idle ∧ s₁.vdiskLock = 0#32 ∧
        s₁.task t = .running c .acquire := by
      rcases hinv.driving_cases with hnone | ⟨u, d, qc, hu, hqc, -⟩
      · have hlock : s.vdiskLock = 0#32 := by
          by_contra hne
          obtain ⟨u, hu⟩ := hheld hne
          exact hnone u hu
        obtain ⟨es, s₁, hrun, hes, hinv₁, hisr, hsame, htask⟩ := hinv.settle hnone
        exact ⟨es, s₁, hrun, hes, hinv₁, hisr, hsame.trans hlock, by rw [htask, ht]⟩
      · obtain ⟨es, s₁, hrun, hes, hinv₁, -, hisr, hlock, -, hothers⟩ := hinv.finish hu hqc
        have htu : t ≠ u := by
          rintro rfl
          exact hqc (RwTask.running.inj (hu.symm.trans ht)).2
        exact ⟨es, s₁, hrun, hes, hinv₁, hisr, hlock, (hothers t htu).trans ht⟩
    obtain ⟨es, s₁, hrun, hes, hinv₁, hisr, hlock, ht₁⟩ := hfree
    -- Then the task takes it and drives.
    have hstep : VirtioStep s₁ (.task t) (taskStep s₁ t c .acquire) :=
      ⟨hisr, c, .acquire, ht₁, rfl⟩
    have ht₂ : (taskStep s₁ t c .acquire).task t = .running c (.allocTest [] 0) := by
      simp [taskStep, hlock]
    have htake : (virtioSystem ι β).Run s (es ++ [.task t]) (taskStep s₁ t c .acquire) :=
      .snoc hrun hstep
    obtain ⟨fs, s', hrun', hfs, -, hret, -⟩ := (hinv₁.step hstep).finish ht₂ (by simp)
    refine ⟨es ++ [.task t] ++ fs, s', htake.append hrun', fun e he => ?_, hret⟩
    rcases List.mem_append.mp he with he | he
    · rcases List.mem_append.mp he with he | he
      · exact hes e he
      · rw [List.mem_singleton.mp he]
        trivial
    · exact hfs e he
  · obtain ⟨es, s', hrun, hes, -, hret, -⟩ := hinv.finish ht hacq
    exact ⟨es, s', hrun, hes, hret⟩

/-- The main result for the task that waits, beside one that drives. -/
theorem twoCalls_progress :
    ∃ es s', (virtioSystem Bool Unit).Run twoCalls es s' ∧ (∀ e ∈ es, Onward e) ∧
      1 ∈ s'.returned :=
  virtioDriver_progress twoCalls twoCalls_reachable true ⟨(), true, 1#64, 1⟩ .acquire rfl

end Runs

end MiniRiscvOs.Proofs
