import MiniRiscvOs.Kernel.VirtioStatus
import MiniRiscvOs.Proofs.Virtio

/-!
# `MiniRiscvOs.Proofs.VirtioStatus`: success on the word of the device

The device writes `0` into the status byte of a request that went well.
`virtio_disk_rw` puts a `0` there itself before it submits the request, so
the test of `virtio_disk_isr` says something only about a device that has
written the byte.

`virtio_status_iff`: exactly in the runs in which the handler finds no `0`
that the device has not written, each call that returns has its `0` from
the device. The invariant says where the one request is: `Stage` for the
call that has the lock, `HandlerOk` for the handler, and `Last`, that the
status byte of a submitted request is what the device wrote last.
-/

set_option autoImplicit false

namespace MiniRiscvOs.Proofs

open MiniRiscvOs.Lib
open MiniRiscvOs.Kernel

variable {ι β : Type}

/-! ### Where the request is -/

/-- No request is submitted. -/
def NoneSubmitted (s : StatusState ι β) : Prop := ∀ i, s.submitted i = false

/-- No request but that of `c` is, and `info[].b` has its block. -/
def OnlySubmitted (c : RwCall β) (s : StatusState ι β) (idx : List Nat) : Prop :=
  (∀ i, s.submitted i = true → i = idx[0]!) ∧ s.virtio.io.disk.infoB idx[0]! = some c.b

/-- What a program point past `lock_acquire` means. -/
def Stage (c : RwCall β) (s : StatusState ι β) : RwPc → Prop
  | .acquire => False
  | .allocTest _ _ | .allocTake _ _ | .rollback _ | .panicked _ => NoneSubmitted s
  | .format idx k =>
      NoneSubmitted s ∧ (17 < k → s.virtio.io.disk.blkDisk c.b = 1#32) ∧
      (18 < k → s.virtio.io.disk.infoB idx[0]! = some c.b)
  | .ring idx | .bump idx =>
      NoneSubmitted s ∧ s.virtio.io.disk.blkDisk c.b = 1#32 ∧
      s.virtio.io.disk.infoB idx[0]! = some c.b
  | .notify idx | .wait idx =>
      OnlySubmitted c s idx ∧
      (s.virtio.io.disk.blkDisk c.b = 1#32 ∨ 0#8 ∈ s.wrote idx[0]!)
  | .clearB idx => OnlySubmitted c s idx ∧ 0#8 ∈ s.wrote idx[0]!
  | .chainFlags _ | .chainNext _ _ | .freeTest _ _ _ | .freeStmt _ _ _ _ | .unlock =>
      NoneSubmitted s ∧ ∃ bs, (c.id, bs) ∈ s.answered

/-- Past its test the handler has a request with a `0` from the device. -/
def HandlerOk (s : StatusState ι β) : Prop :=
  match s.virtio.io.isr with
  | .readB id => s.submitted id = true ∧ 0#8 ∈ s.wrote id
  | .clear b => ∃ id, s.submitted id = true ∧ 0#8 ∈ s.wrote id ∧
      b = s.virtio.io.disk.infoB id
  | _ => True

/-- The status byte of a submitted request is what the device wrote last. -/
def Last (s : StatusState ι β) : Prop :=
  ∀ i b, s.submitted i = true → (s.wrote i).getLast? = some b →
    s.virtio.io.disk.infoStatus i = b

/-- The invariant of the driver with any device. -/
structure StatusInv (s : StatusState ι β) : Prop where
  unique : ∀ t u, Driving (s.virtio.task t) → Driving (s.virtio.task u) → t = u
  locked : ∀ t, Driving (s.virtio.task t) → s.virtio.vdiskLock = 1#32
  stage : ∀ t c pc, s.virtio.task t = .running c pc → pc ≠ .acquire → Stage c s pc
  rest : (∀ t, ¬ Driving (s.virtio.task t)) → NoneSubmitted s
  last : Last s
  answered : ∀ e ∈ s.answered, 0#8 ∈ e.2
  returned : ∀ id ∈ s.virtio.returned, ∃ bs, (id, bs) ∈ s.answered
  handler : HandlerOk s

/-- Nothing is submitted, so nothing is the last. -/
theorem last_of_none {s : StatusState ι β} (h : NoneSubmitted s) : Last s := by
  intro i b hi
  simp [h i] at hi

/-- An idle handler has read nothing. -/
theorem handlerOk_of_idle {s : StatusState ι β} (h : s.virtio.io.isr = .idle) : HandlerOk s := by
  simp [HandlerOk, h]

/-- The device and the handler keep the program point of the call. The
handler clears `b->disk` of a request only after its `0`. -/
theorem Stage.mono {c : RwCall β} {s s' : StatusState ι β} {pc : RwPc} (h : Stage c s pc)
    (hsub : s'.submitted = s.submitted) (hans : s'.answered = s.answered)
    (hinfo : s'.virtio.io.disk.infoB = s.virtio.io.disk.infoB)
    (hwrote : ∀ i, 0#8 ∈ s.wrote i → 0#8 ∈ s'.wrote i)
    (hdisk : s'.virtio.io.disk.blkDisk = s.virtio.io.disk.blkDisk ∨
      ∃ id, s.submitted id = true ∧ 0#8 ∈ s.wrote id) : Stage c s' pc := by
  -- Without a request the handler has nothing to clear.
  have hnone : NoneSubmitted s → NoneSubmitted s' ∧
      s'.virtio.io.disk.blkDisk = s.virtio.io.disk.blkDisk := by
    intro hs
    refine ⟨fun i => by rw [hsub, hs i], hdisk.resolve_right ?_⟩
    rintro ⟨id, hid, -⟩
    simp [hs id] at hid
  have honly : ∀ idx, OnlySubmitted c s idx → OnlySubmitted c s' idx := by
    intro idx hs
    exact ⟨by rw [hsub]; exact hs.1, by rw [hinfo]; exact hs.2⟩
  cases pc with
  | acquire => exact h.elim
  | allocTest idx i | allocTake idx i | rollback idx | panicked msg => exact (hnone h).1
  | format idx k =>
      obtain ⟨hs, hblk, hb⟩ := h
      obtain ⟨hs', hsame⟩ := hnone hs
      exact ⟨hs', by rwa [hsame], by rwa [hinfo]⟩
  | ring idx | bump idx =>
      obtain ⟨hs, hblk, hb⟩ := h
      obtain ⟨hs', hsame⟩ := hnone hs
      exact ⟨hs', by rwa [hsame], by rwa [hinfo]⟩
  | notify idx | wait idx =>
      obtain ⟨hs, hcase⟩ := h
      refine ⟨honly idx hs, ?_⟩
      rcases hdisk with hsame | ⟨id, hid, hzero⟩
      · rw [hsame]
        exact hcase.imp_right (hwrote _)
      · -- The request that the handler clears is that of the call.
        rw [hs.1 id hid] at hzero
        exact Or.inr (hwrote _ hzero)
  | clearB idx => exact ⟨honly idx h.1, hwrote _ h.2⟩
  | chainFlags i | chainNext i flag | freeTest i flag nxt | freeStmt i flag nxt k | unlock =>
      exact ⟨(hnone h.1).1, by rw [hans]; exact h.2⟩

/-! ### The statements of the driver -/

section Statements

variable [DecidableEq β]

/-- The last two assignments of `rwFormat`, to `b->disk` and `info[].b`. -/
theorem rwFormat_late {c : RwCall β} {idx : List Nat} {k : Nat} {stmt : Disk β → Disk β}
    (h : (rwFormat c idx)[k]? = some stmt) (d : Disk β) :
    (16 < k → k = 17 ∨ (stmt d).blkDisk = d.blkDisk) ∧
      (k = 17 → (stmt d).blkDisk c.b = 1#32) ∧
      (17 < k → (stmt d).infoB idx[0]! = some c.b) := by
  have hlen : k < 19 := (List.getElem?_eq_some_iff.mp h).1
  rcases Nat.lt_or_ge k 17 with hlt | hge
  · refine ⟨fun hk => ?_, fun hk => ?_, fun hk => ?_⟩ <;> omega
  · obtain rfl | rfl : k = 17 ∨ k = 18 := by omega
    · obtain rfl : (fun d : Disk β => { d with blkDisk := Function.update d.blkDisk c.b 1#32 })
        = stmt := Option.some.inj h
      refine ⟨fun _ => Or.inl rfl, fun _ => ?_, fun hk => absurd hk (by decide)⟩
      exact Function.update_self ..
    · obtain rfl : (fun d : Disk β => { d with
        infoB := Function.update d.infoB idx[0]! (some c.b) }) = stmt := Option.some.inj h
      refine ⟨fun _ => Or.inr rfl, fun hk => absurd hk (by decide), fun _ => ?_⟩
      exact Function.update_self ..

/-- The number of stores. -/
theorem length_rwFormat (c : RwCall β) (idx : List Nat) : (rwFormat c idx).length = 19 := rfl

/-- The state after a statement of `virtio_disk_rw`. -/
def rwNext (s : StatusState ι β) (c : RwCall β) (pc : RwPc) (task : ι → RwTask β) :
    StatusState ι β :=
  { recordRw s c pc with
    virtio := { s.virtio with io := (rwStep c s.virtio.io pc).1, task := task } }

/-- What has to hold after a statement of `virtio_disk_rw`. -/
structure StageNext (c : RwCall β) (s s' : StatusState ι β) (pc : RwPc) : Prop where
  stage : Stage c s' pc
  last : Last s'
  kept : ∀ e ∈ s.answered, e ∈ s'.answered
  answered : ∀ e ∈ s'.answered, e ∈ s.answered ∨ 0#8 ∈ e.2

omit [DecidableEq β] in
/-- While no request is submitted, a statement that leaves the ghosts alone
has to keep its own part only. -/
theorem StageNext.of_none {c : RwCall β} {s s' : StatusState ι β} {pc : RwPc}
    (hnone : NoneSubmitted s') (hans : s'.answered = s.answered) (hstage : Stage c s' pc) :
    StageNext c s s' pc :=
  ⟨hstage, last_of_none hnone, fun e he => by rwa [hans], fun e he => Or.inl (by rwa [← hans])⟩

/-- An assignment of the request, or the end of them. -/
theorem StageNext.format {c : RwCall β} {s : StatusState ι β} {idx : List Nat} {k : Nat}
    (h : Stage c s (.format idx k)) (task : ι → RwTask β) :
    StageNext c s (rwNext s c (.format idx k) task) (rwStep c s.virtio.io (.format idx k)).2 := by
  obtain ⟨hnone, hblk, hb⟩ := h
  refine StageNext.of_none hnone rfl ?_
  rw [rwNext, rwStep]
  cases hk : (rwFormat c idx)[k]? with
  | some stmt =>
      -- Statement 17 sets `b->disk`, and statement 18, the last one, `info[].b`.
      obtain ⟨hsame, hset, hinfo⟩ := rwFormat_late hk s.virtio.io.disk
      refine ⟨hnone, fun hlt => ?_, fun hlt => hinfo (by omega)⟩
      rcases hsame (by omega) with rfl | hsame
      · exact hset rfl
      · by_cases heq : k = 17
        · exact hset heq
        · exact (congrFun hsame c.b).trans (hblk (by omega))
  | none =>
      -- No statement is left: the request is formatted.
      have hlen : 19 ≤ k := by
        rw [← length_rwFormat c idx]
        exact List.getElem?_eq_none_iff.mp hk
      exact ⟨hnone, hblk (by omega), hb (by omega)⟩

/-- The request is submitted, and the device has not answered yet. -/
theorem StageNext.bump {c : RwCall β} {s : StatusState ι β} {idx : List Nat}
    (h : Stage c s (.bump idx)) (task : ι → RwTask β) :
    StageNext c s (rwNext s c (.bump idx) task) (.notify idx) := by
  obtain ⟨hnone, hblk, hb⟩ := h
  have honly : ∀ i, Function.update s.submitted idx[0]! true i = true → i = idx[0]! := by
    intro i hi
    by_contra hne
    rw [Function.update_of_ne hne, hnone i] at hi
    cases hi
  refine ⟨⟨⟨honly, hb⟩, Or.inl hblk⟩, fun i b hi hb => ?_, fun e he => he,
    fun e he => Or.inl he⟩
  obtain rfl := honly i hi
  have hb' : (Function.update s.wrote idx[0]! [] idx[0]!).getLast? = some b := hb
  simp at hb'

/-- The request is over, and the device has answered it with a `0`. -/
theorem StageNext.clearB {c : RwCall β} {s : StatusState ι β} {idx : List Nat}
    (h : Stage c s (.clearB idx)) (task : ι → RwTask β) :
    StageNext c s (rwNext s c (.clearB idx) task) (rwStep c s.virtio.io (.clearB idx)).2 := by
  obtain ⟨⟨honly, -⟩, hzero⟩ := h
  have hnone : ∀ i, Function.update s.submitted idx[0]! false i = false := by
    intro i
    by_cases hi : i = idx[0]!
    · rw [hi, Function.update_self]
    · rw [Function.update_of_ne hi]
      exact Bool.eq_false_iff.mpr fun hs => hi (honly i hs)
  refine ⟨⟨hnone, s.wrote idx[0]!, List.mem_cons_self⟩, last_of_none hnone,
    fun e he => List.mem_cons_of_mem _ he, fun e he => ?_⟩
  rcases List.mem_cons.mp he with rfl | he
  · exact Or.inr hzero
  · exact Or.inl he

/-- The statements of the driver, one case for each program point between
`lock_acquire` and `lock_free`. -/
theorem Stage.rwNext {c : RwCall β} {s : StatusState ι β} {pc : RwPc} (h : Stage c s pc)
    (hunl : pc ≠ .unlock) (hlast : Last s) (task : ι → RwTask β) :
    StageNext c s (Proofs.rwNext s c pc task) (rwStep c s.virtio.io pc).2 := by
  cases pc with
  -- Up to the increment of `avail->idx` nothing is submitted, and from `clearB` on
  -- nothing is any more.
  | acquire => exact h.elim
  | unlock => exact absurd rfl hunl
  | allocTest idx i =>
      refine StageNext.of_none h rfl ?_
      rw [rwStep]
      split
      · exact h
      · split <;> exact h
  | allocTake idx i =>
      refine StageNext.of_none h rfl ?_
      rw [rwStep]
      show Stage c _ (if (idx ++ [i]).length = 3 then _ else _)
      split
      · exact ⟨h, fun hlt => absurd hlt (by decide), fun hlt => absurd hlt (by decide)⟩
      · exact h
  | rollback idx =>
      refine StageNext.of_none h rfl ?_
      cases idx with
      | nil => exact h
      | cons j js =>
          rw [rwStep]
          split <;> exact h
  | format idx k => exact StageNext.format h task
  | ring idx => exact StageNext.of_none h.1 rfl h
  | bump idx => exact StageNext.bump h task
  | notify idx => exact ⟨h, hlast, fun e he => he, fun e he => Or.inl he⟩
  | wait idx =>
      refine ⟨?_, hlast, fun e he => he, fun e he => Or.inl he⟩
      show Stage c _ (if s.virtio.io.disk.blkDisk c.b = 1#32 then _ else _)
      split
      · exact h
      · next hclear => exact ⟨h.1, h.2.resolve_left hclear⟩
  | clearB idx => exact StageNext.clearB h task
  | chainFlags i => exact StageNext.of_none h.1 rfl h
  | chainNext i flag => exact StageNext.of_none h.1 rfl h
  | freeTest i flag nxt =>
      refine StageNext.of_none h.1 rfl ?_
      rw [rwStep]
      split
      · exact h.1
      · split
        · exact h.1
        · exact h
  | freeStmt i flag nxt k =>
      refine StageNext.of_none h.1 rfl ?_
      rw [rwStep]
      split
      · exact h
      · show Stage c _ (if flag &&& vringDescFNext ≠ 0#16 then _ else _)
        split <;> exact h
  | panicked msg => exact StageNext.of_none h rfl h

end Statements

/-! ### All of them together -/

namespace StatusInv

variable [DecidableEq ι] [DecidableEq β] {s s' : StatusState ι β}

omit [DecidableEq ι] [DecidableEq β] in
/-- The device or the handler changes the shared state. The tasks stand
still. -/
theorem still (hinv : StatusInv s) (htask : s'.virtio.task = s.virtio.task)
    (hlock : s'.virtio.vdiskLock = s.virtio.vdiskLock)
    (hret : s'.virtio.returned = s.virtio.returned) (hsub : s'.submitted = s.submitted)
    (hans : s'.answered = s.answered)
    (hinfo : s'.virtio.io.disk.infoB = s.virtio.io.disk.infoB)
    (hwrote : ∀ i, 0#8 ∈ s.wrote i → 0#8 ∈ s'.wrote i)
    (hdisk : s'.virtio.io.disk.blkDisk = s.virtio.io.disk.blkDisk ∨
      ∃ id, s.submitted id = true ∧ 0#8 ∈ s.wrote id)
    (hlast : Last s') (hhandler : HandlerOk s') : StatusInv s' where
  unique t u := by
    rw [htask]
    exact hinv.unique t u
  locked t := by
    rw [htask, hlock]
    exact hinv.locked t
  stage t c pc := by
    rw [htask]
    exact fun ht hpc => (hinv.stage t c pc ht hpc).mono hsub hans hinfo hwrote hdisk
  rest := by
    rw [htask]
    exact fun hnone i => (congrFun hsub i).trans (hinv.rest hnone i)
  last := hlast
  answered := by
    rw [hans]
    exact hinv.answered
  returned := by
    rw [hret, hans]
    exact hinv.returned
  handler := hhandler

omit [DecidableEq ι] [DecidableEq β] in
/-- The device writes a status byte. -/
theorem writeStatus (hinv : StatusInv s) (i : Nat) (status : Byte) :
    StatusInv { s.onDisk fun d => { d with
        infoStatus := Function.update d.infoStatus i status } with
      wrote := if s.submitted i then Function.update s.wrote i (s.wrote i ++ [status])
        else s.wrote } := by
  -- What the device has written before is still recorded.
  have hmono : ∀ j, 0#8 ∈ s.wrote j → 0#8 ∈ (if s.submitted i then
      Function.update s.wrote i (s.wrote i ++ [status]) else s.wrote) j := by
    intro j hj
    split
    · by_cases hji : j = i
      · subst hji
        rw [Function.update_self]
        exact List.mem_append_left _ hj
      · rwa [Function.update_of_ne hji]
    · exact hj
  refine hinv.still rfl rfl rfl rfl rfl rfl hmono (Or.inl rfl) ?_ ?_
  · -- The byte of a submitted request is the one just written, or as before.
    intro j b hj hb
    have hj' : s.submitted j = true := hj
    show Function.update s.virtio.io.disk.infoStatus i status j = b
    by_cases hji : j = i
    · subst hji
      simp only [hj', if_true, Function.update_self, List.getLast?_concat] at hb
      rw [Function.update_self]
      exact Option.some.inj hb
    · rw [Function.update_of_ne hji]
      refine hinv.last j b hj' ?_
      simp only at hb
      split at hb
      · rwa [Function.update_of_ne hji] at hb
      · exact hb
  · have hold := hinv.handler
    simp only [HandlerOk, StatusState.onDisk, DiskIo.onDisk] at hold ⊢
    split
    · next id hid =>
        rw [hid] at hold
        exact ⟨hold.1, hmono id hold.2⟩
    · next b hb =>
        rw [hb] at hold
        obtain ⟨id, hid, hzero, hinfo⟩ := hold
        exact ⟨id, hid, hmono id hzero, hinfo⟩
    · trivial

/-- The handler moves on and changes nothing else. -/
def isrAt (s : StatusState ι β) (pc : IsrPc β) : StatusState ι β :=
  { s with virtio := { s.virtio with io := { s.virtio.io with isr := pc } } }

omit [DecidableEq ι] in
/-- The handler makes a step. When it finds a status of `0`, the device has
written that byte. -/
theorem isr (hinv : StatusInv s)
    (hok : ∀ id, s.virtio.io.isr = .checkStatus id →
      s.virtio.io.disk.infoStatus id ≠ 0#8 ∨ s.submitted id = true ∧ s.wrote id ≠ []) :
    StatusInv { s with virtio := { s.virtio with io := isrStep s.virtio.io } } := by
  have hmove : ∀ pc, isrStep s.virtio.io = { s.virtio.io with isr := pc } →
      HandlerOk (isrAt s pc) →
      StatusInv { s with virtio := { s.virtio with io := isrStep s.virtio.io } } := by
    intro pc heq hhandler
    rw [heq]
    exact hinv.still rfl rfl rfl rfl rfl rfl (fun _ => id) (Or.inl rfl) hinv.last hhandler
  have hold := hinv.handler
  rw [HandlerOk] at hold
  cases hisr : s.virtio.io.isr with
  | idle => exact hmove .test (by rw [isrStep, hisr]) trivial
  | test =>
      refine hmove _ (by rw [isrStep, hisr]) ?_
      split <;> trivial
  | readId => exact hmove (.checkStatus _) (by rw [isrStep, hisr]) trivial
  | checkStatus id =>
      refine hmove _ (by rw [isrStep, hisr]) ?_
      split
      · trivial
      · next hstatus =>
          -- The `0` is the last that the device wrote.
          obtain ⟨hsub, hne⟩ := (hok id hisr).resolve_left hstatus
          obtain ⟨b, hb⟩ := Option.isSome_iff_exists.mp (List.getLast?_isSome.mpr hne)
          have hzero : b = 0#8 := by
            rw [← hinv.last id b hsub hb]
            exact not_not.mp hstatus
          exact ⟨hsub, hzero ▸ List.mem_of_getLast? hb⟩
  | readB id =>
      rw [hisr] at hold
      exact hmove (.clear _) (by rw [isrStep, hisr]) ⟨id, hold.1, hold.2, rfl⟩
  | clear b =>
      rw [hisr] at hold
      cases b with
      | none =>
          have hstay : isrStep s.virtio.io = s.virtio.io := by rw [isrStep, hisr]
          rwa [hstay]
      | some b =>
          obtain ⟨id, hid, hzero, -⟩ := hold
          have heq : isrStep s.virtio.io = { s.virtio.io with
              isr := .bump
              disk := { s.virtio.io.disk with
                blkDisk := Function.update s.virtio.io.disk.blkDisk b 0#32 } } := by
            rw [isrStep, hisr]
          rw [heq]
          refine hinv.still rfl rfl rfl rfl rfl rfl (fun _ h => h) (Or.inr ⟨id, hid, hzero⟩)
            hinv.last ?_
          trivial
  | bump =>
      have heq : isrStep s.virtio.io = { s.virtio.io with
          isr := .test
          disk := { s.virtio.io.disk with usedIdx := s.virtio.io.disk.usedIdx + 1#16 } } := by
        rw [isrStep, hisr]
      rw [heq]
      refine hinv.still rfl rfl rfl rfl rfl rfl (fun _ h => h) (Or.inl rfl) hinv.last ?_
      trivial
  | panicked =>
      have hstay : isrStep s.virtio.io = s.virtio.io := by rw [isrStep, hisr]
      rwa [hstay]

omit [DecidableEq ι] [DecidableEq β] in
/-- A task past the lock has set it. -/
theorem not_driving_of_free (hinv : StatusInv s) (hfree : s.virtio.vdiskLock = 0#32) (t : ι) :
    ¬ Driving (s.virtio.task t) := by
  intro ht
  have hone := hinv.locked t ht
  rw [hfree] at hone
  exact absurd hone (by decide)

omit [DecidableEq β] in
/-- One task drives, or starts to, and it alone. The others are outside or
wait for the lock. -/
theorem drive (hinv : StatusInv s) {t : ι} {c : RwCall β} {pc : RwPc}
    (hsole : ∀ u, Driving (s.virtio.task u) → u = t)
    (htask : s'.virtio.task = Function.update s.virtio.task t (.running c pc))
    (hlock : s'.virtio.vdiskLock = 1#32) (hret : s'.virtio.returned = s.virtio.returned)
    (hnext : StageNext c s s' pc) (hhandler : HandlerOk s') : StatusInv s' := by
  -- A call that still waits for the lock has no stage.
  have hpc : pc ≠ .acquire := by
    rintro rfl
    exact hnext.stage
  -- The update concerns `t`, and no other was driving.
  have honly : ∀ u, Driving (s'.virtio.task u) → u = t := by
    rw [htask]
    exact fun u => eq_of_driving_update hsole
  have hself : s'.virtio.task t = .running c pc := by rw [htask, Function.update_self]
  refine ⟨fun u v hu hv => (honly u hu).trans (honly v hv).symm, fun _ _ => hlock, ?_, ?_,
    hnext.last, ?_, ?_, hhandler⟩
  · -- The call that drives is `t`'s, with its stage after the step.
    intro u d qc hu hqc
    obtain rfl := honly u (driving_of_running hu hqc)
    obtain ⟨rfl, rfl⟩ := RwTask.running.inj (hself.symm.trans hu)
    exact hnext.stage
  · exact fun hnone => absurd (driving_of_running hself hpc) (hnone t)
  · -- An answer is an old one or the one recorded here.
    intro e he
    exact (hnext.answered e he).elim (hinv.answered e) id
  · intro id hid
    rw [hret] at hid
    obtain ⟨bs, hbs⟩ := hinv.returned id hid
    exact ⟨bs, hnext.kept _ hbs⟩

/-- The `amoswap` of `lock_acquire`. Where it finds the lock free, nobody
drives, and no request is submitted. -/
theorem acquire (hinv : StatusInv s) {t : ι} {c : RwCall β}
    (ht : s.virtio.task t = .running c .acquire) (hidle : s.virtio.io.isr = .idle) :
    StatusInv { s with virtio := taskStep s.virtio t c .acquire } := by
  show StatusInv { s with virtio := { s.virtio with
    vdiskLock := 1#32
    task := Function.update s.virtio.task t
      (.running c (if s.virtio.vdiskLock = 0#32 then .allocTest [] 0 else .acquire)) } }
  by_cases hfree : s.virtio.vdiskLock = 0#32
  · have hnone := hinv.not_driving_of_free hfree
    rw [if_pos hfree]
    exact hinv.drive (t := t) (c := c) (fun u hu => absurd hu (hnone u)) rfl rfl rfl
      (StageNext.of_none (hinv.rest hnone) rfl (hinv.rest hnone)) (handlerOk_of_idle hidle)
  · rw [if_neg hfree, ← ht, Function.update_eq_self]
    exact ⟨hinv.unique, fun _ _ => rfl, fun u d qc hu hqc => (hinv.stage u d qc hu hqc).mono
      rfl rfl rfl (fun _ h => h) (Or.inl rfl), hinv.rest, hinv.last, hinv.answered,
      hinv.returned, handlerOk_of_idle hidle⟩

/-- `lock_free` and the return. -/
theorem unlock (hinv : StatusInv s) {t : ι} {c : RwCall β}
    (ht : s.virtio.task t = .running c .unlock) (hidle : s.virtio.io.isr = .idle) :
    StatusInv { s with virtio := taskStep s.virtio t c .unlock } := by
  have hpc : RwPc.unlock ≠ .acquire := by simp
  have hdriving := driving_of_running ht hpc
  obtain ⟨hnone, bs, hbs⟩ := hinv.stage t c .unlock ht hpc
  have hnot := not_driving_leave fun u hu => hinv.unique u t hu hdriving
  refine ⟨fun u _ hu => absurd hu (hnot u), fun u hu => absurd hu (hnot u), ?_,
    fun _ => hnone, last_of_none hnone, hinv.answered, ?_, handlerOk_of_idle hidle⟩
  · exact fun u d qc hu hqc => absurd (driving_of_running hu hqc) (hnot u)
  · intro id hid
    rcases List.mem_cons.mp hid with rfl | hid
    · exact ⟨bs, hbs⟩
    · exact hinv.returned id hid

/-- A task makes a step in its call. -/
theorem task (hinv : StatusInv s) {t : ι} {c : RwCall β} {pc : RwPc}
    (ht : s.virtio.task t = .running c pc) (hidle : s.virtio.io.isr = .idle) :
    StatusInv { recordRw s c pc with virtio := taskStep s.virtio t c pc } := by
  by_cases hacq : pc = .acquire
  · subst hacq
    exact hinv.acquire ht hidle
  by_cases hunl : pc = .unlock
  · subst hunl
    exact hinv.unlock ht hidle
  have hdriving := driving_of_running ht hacq
  have hnext := (hinv.stage t c pc ht hacq).rwNext hunl hinv.last
    (Function.update s.virtio.task t (.running c (rwStep c s.virtio.io pc).2))
  have hstep : ({ recordRw s c pc with virtio := taskStep s.virtio t c pc } :
      StatusState ι β) = rwNext s c pc
        (Function.update s.virtio.task t (.running c (rwStep c s.virtio.io pc).2)) := by
    cases pc <;> first | rfl | exact absurd rfl hacq | exact absurd rfl hunl
  rw [hstep]
  exact hinv.drive (fun u hu => hinv.unique u t hu hdriving) rfl (hinv.locked t hdriving) rfl
    hnext (handlerOk_of_idle ((rwStep_completed c s.virtio.io pc).2.trans hidle))

omit [DecidableEq β] in
/-- A task calls `virtio_disk_rw`. -/
theorem call (hinv : StatusInv s) {t : ι} (ht : s.virtio.task t = .outside) (c : RwCall β)
    (hidle : s.virtio.io.isr = .idle) :
    StatusInv { s with virtio := { s.virtio with
      task := Function.update s.virtio.task t (.running c .acquire)
      nextCall := s.virtio.nextCall + 1 } } := by
  have hback := driving_call ht c
  refine ⟨fun u v hu hv => hinv.unique u v ((hback u).mp hu) ((hback v).mp hv),
    fun u hu => hinv.locked u ((hback u).mp hu), ?_,
    fun hnone => hinv.rest fun u hu => hnone u ((hback u).mpr hu), hinv.last, hinv.answered,
    hinv.returned, handlerOk_of_idle hidle⟩
  intro u d qc hu hqc
  have hu' : Function.update s.virtio.task t (.running c .acquire) u = .running d qc := hu
  by_cases hut : u = t
  · rw [hut, Function.update_self] at hu'
    obtain ⟨-, rfl⟩ := RwTask.running.inj hu'
    exact absurd rfl hqc
  · rw [Function.update_of_ne hut] at hu'
    exact (hinv.stage u d qc hu' hqc).mono rfl rfl rfl (fun _ h => h) (Or.inl rfl)

end StatusInv

section Runs

variable [DecidableEq ι] [DecidableEq β]

/-- When the handler tests a status byte of `0`, that byte is one of a
submitted request, and the device has written it since it was submitted. -/
def StatusRead (s : StatusState ι β) : StatusEvent ι β → Prop
  | .kernel .isr => ∀ id, s.virtio.io.isr = .checkStatus id →
      s.virtio.io.disk.infoStatus id ≠ 0#8 ∨ s.submitted id = true ∧ s.wrote id ≠ []
  | _ => True

/-- Each call that has returned has its `0` from the device. Past its test
of the status the handler has a request with a `0` from the device. -/
structure OnDevicesWord (s : StatusState ι β) : Prop where
  returned : ∀ id ∈ s.virtio.returned, ∃ bs, (id, bs) ∈ s.answered ∧ 0#8 ∈ bs
  handler : ∀ id, s.virtio.io.isr = .readB id → s.submitted id = true ∧ 0#8 ∈ s.wrote id

omit [DecidableEq ι] [DecidableEq β] in
/-- The invariant holds at first. -/
theorem statusInv_init {s : StatusState ι β} (h : StatusInit s) : StatusInv s := by
  obtain ⟨⟨-, -, -, -, -, -, -, hisr, -, -, htask, -, hret⟩, hnone, hans⟩ := h
  have hnot : ∀ t, ¬ Driving (s.virtio.task t) := by
    intro t
    rw [htask t]
    exact fun h => h
  refine ⟨fun t _ ht => absurd ht (hnot t), fun t ht => absurd ht (hnot t), ?_, fun _ => hnone,
    last_of_none hnone, by simp [hans], by simp [hret], handlerOk_of_idle hisr⟩
  intro t c pc ht
  simp [htask t] at ht

/-- Every step that meets the condition keeps the invariant. -/
theorem statusInv_step (s : StatusState ι β) (e : StatusEvent ι β) (s' : StatusState ι β)
    (hinv : StatusInv s) (hok : StatusRead s e) (hstep : StatusStep s e s') : StatusInv s' := by
  cases e with
  | kernel e =>
      obtain ⟨hdev, v, hv, rfl⟩ := hstep
      cases e with
      | setBlockno b n =>
          obtain ⟨-, rfl⟩ := hv
          exact hinv.still rfl rfl rfl rfl rfl rfl (fun _ h => h) (Or.inl rfl) hinv.last
            hinv.handler
      | call t b write =>
          obtain ⟨hidle, ht, rfl⟩ := hv
          exact hinv.call ht _ hidle
      | task t =>
          obtain ⟨hidle, c, pc, ht, rfl⟩ := hv
          -- What a step of the task records depends on where its call is.
          have hrecord : record s (.task t) = recordRw s c pc := by rw [record, ht]
          rw [hrecord]
          exact hinv.task ht hidle
      | isr =>
          obtain rfl := hv
          exact hinv.isr hok
      | device m => exact absurd rfl (hdev m)
  | writeStatus i status =>
      obtain rfl := hstep
      exact hinv.writeStatus i status
  | append k id =>
      obtain rfl := hstep
      exact hinv.still rfl rfl rfl rfl rfl rfl (fun _ h => h) (Or.inl rfl) hinv.last hinv.handler
  | publish n =>
      obtain rfl := hstep
      exact hinv.still rfl rfl rfl rfl rfl rfl (fun _ h => h) (Or.inl rfl) hinv.last hinv.handler

/-- The run lemma of the invariant. -/
theorem statusInv_run {s₀ s : StatusState ι β} {es : List (StatusEvent ι β)} (h₀ : StatusInit s₀)
    (hrun : (statusSystem ι β).Run s₀ es s)
    (hok : System.Run.Allowed (statusSystem ι β) StatusRead s₀ es) : StatusInv s :=
  System.invariant_of_allowed statusInv_step (statusInv_init h₀) hrun hok

omit [DecidableEq ι] [DecidableEq β] in
/-- The invariant has the property. -/
theorem StatusInv.onDevicesWord {s : StatusState ι β} (h : StatusInv s) : OnDevicesWord s where
  returned id hid := by
    obtain ⟨bs, hbs⟩ := h.returned id hid
    exact ⟨bs, hbs, h.answered _ hbs⟩
  handler id hid := by
    have hhandler := h.handler
    rwa [HandlerOk, hid] at hhandler

/-- A step of the handler that finds a `0` goes past the test. -/
theorem isr_passes {s : StatusState ι β} {id : Nat} (hisr : s.virtio.io.isr = .checkStatus id)
    (hzero : s.virtio.io.disk.infoStatus id = 0#8) :
    ∃ s', StatusStep s (.kernel .isr) s' ∧ s'.virtio.io.isr = .readB id ∧
      s'.submitted = s.submitted ∧ s'.wrote = s.wrote := by
  refine ⟨{ s with virtio := { s.virtio with io := isrStep s.virtio.io } },
    ⟨by simp, _, rfl, rfl⟩, ?_, rfl, rfl⟩
  show (isrStep s.virtio.io).isr = _
  simp [isrStep, hisr, hzero]

/-- When the driver reports success only on the word of the device: exactly
in the runs in which each status byte of `0` that the handler tests is one
that the device has written since the request was submitted. -/
theorem virtio_status_iff (s₀ : StatusState ι β) (h₀ : (statusSystem ι β).init s₀)
    (es : List (StatusEvent ι β)) :
    (∀ pre post s, es = pre ++ post → (statusSystem ι β).Run s₀ pre s → OnDevicesWord s) ↔
      System.Run.Allowed (statusSystem ι β) StatusRead s₀ es := by
  constructor
  · rintro hall pre e post s hes hrun
    cases e with
    | kernel e =>
        cases e with
        | isr =>
            intro id hisr
            by_contra hbad
            rw [not_or, not_not] at hbad
            -- One step further the handler is past its test.
            obtain ⟨s', hstep, hisr', hsub, hwrote⟩ := isr_passes hisr hbad.1
            have hlonger : es = (pre ++ [.kernel .isr]) ++ post := by simp [hes]
            have hword := hall _ post s' hlonger (hrun.snoc hstep)
            obtain ⟨hid, hzero⟩ := hword.handler id hisr'
            rw [hsub] at hid
            rw [hwrote] at hzero
            exact hbad.2 ⟨hid, List.ne_nil_of_mem hzero⟩
        | _ => trivial
    | _ => trivial
  · rintro hok pre post s rfl hrun
    exact (statusInv_run h₀ hrun hok.left).onDevicesWord

end Runs

/-! ### A device that says nothing -/

/-- The steps of one task, of the handler and of the device, where they can
be made. -/
def statusNext (s : StatusState Bool Unit) :
    StatusEvent Bool Unit → Option (StatusState Bool Unit)
  | .kernel (.call t b write) =>
      if s.virtio.io.isr = .idle then
        match s.virtio.task t with
        | .outside => some { s with virtio := { s.virtio with
            task := Function.update s.virtio.task t
              (.running ⟨b, write, (s.virtio.blockno b * 1#32).setWidth 64, s.virtio.nextCall⟩
                .acquire)
            nextCall := s.virtio.nextCall + 1 } }
        | .running _ _ => none
      else none
  | .kernel (.task t) =>
      if s.virtio.io.isr = .idle then
        match s.virtio.task t with
        | .running c pc => some { recordRw s c pc with virtio := taskStep s.virtio t c pc }
        | .outside => none
      else none
  | .kernel .isr => some { s with virtio := { s.virtio with io := isrStep s.virtio.io } }
  | .kernel _ => none
  | .writeStatus i status =>
      some { s.onDisk fun d => { d with
          infoStatus := Function.update d.infoStatus i status } with
        wrote := if s.submitted i then Function.update s.wrote i (s.wrote i ++ [status])
          else s.wrote }
  | .append k id =>
      some (s.onDisk fun d => { d with usedRing := Function.update d.usedRing k id })
  | .publish n => some (s.onDisk fun d => { d with usedRingIdx := n })

/-- What the executable step computes is a step. -/
theorem statusNext_step (s : StatusState Bool Unit) (e : StatusEvent Bool Unit)
    (s' : StatusState Bool Unit) (h : statusNext s e = some s') :
    (statusSystem Bool Unit).step s e s' := by
  -- Each guard of the executable step is one of the step.
  cases e with
  | kernel e =>
      cases e with
      | call t b write =>
          simp only [statusNext] at h
          split at h
          · next hidle =>
              split at h
              · next ht =>
                  obtain rfl := Option.some.inj h
                  exact ⟨by simp, _, ⟨hidle, ht, rfl⟩, rfl⟩
              · cases h
          · cases h
      | task t =>
          simp only [statusNext] at h
          split at h
          · next hidle =>
              split at h
              · next c pc ht =>
                  obtain rfl := Option.some.inj h
                  refine ⟨by simp, _, ⟨hidle, c, pc, ht, rfl⟩, ?_⟩
                  rw [record, ht]
              · cases h
          · cases h
      | isr =>
          obtain rfl := Option.some.inj h
          exact ⟨by simp, _, rfl, rfl⟩
      | setBlockno b n => cases h
      | device m => cases h
  | writeStatus i status => exact (Option.some.inj h).symm
  | append k id => exact (Option.some.inj h).symm
  | publish n => exact (Option.some.inj h).symm

/-- Where it makes a step, there is no other. -/
theorem statusNext_det (s : StatusState Bool Unit) (e : StatusEvent Bool Unit)
    (t t' : StatusState Bool Unit) (h : statusNext s e = some t)
    (h' : (statusSystem Bool Unit).step s e t') : t = t' := by
  cases e with
  | kernel e =>
      obtain ⟨-, v, hv, rfl⟩ := h'
      cases e with
      | call u b write =>
          obtain ⟨hidle, hu, rfl⟩ := hv
          simp only [statusNext, hidle, hu, if_true] at h
          exact (Option.some.inj h).symm
      | task u =>
          obtain ⟨hidle, c, pc, hu, rfl⟩ := hv
          simp only [statusNext, hidle, hu, if_true] at h
          rw [record, hu]
          exact (Option.some.inj h).symm
      | isr =>
          obtain rfl := hv
          exact (Option.some.inj h).symm
      | setBlockno b n => cases h
      | device m => cases h
  | writeStatus i status => exact (Option.some.inj h).symm.trans h'.symm
  | append k id => exact (Option.some.inj h).symm.trans h'.symm
  | publish n => exact (Option.some.inj h).symm.trans h'.symm

/-- The driver with two tasks and one block, as `virtio_disk_init` leaves
it. -/
def statusReset : StatusState Bool Unit := ⟨diskReset, fun _ => false, fun _ => [], []⟩

/-- The state after the reset is an initial one. -/
theorem statusReset_init : StatusInit statusReset :=
  ⟨⟨fun _ _ => rfl, fun _ => rfl, rfl, rfl, rfl, rfl, rfl, rfl, fun _ => rfl, rfl,
    fun _ => rfl, rfl, rfl⟩, fun _ => rfl, rfl⟩

/-- A read of the block, up to the wait. -/
def readRequest : List (StatusEvent Bool Unit) :=
  .kernel (.call false () false) :: List.replicate 33 (.kernel (.task false))

/-- The device puts the request into the used ring. -/
def usedEntry : List (StatusEvent Bool Unit) := [.append 0 0#32, .publish 1#16]

/-- The handler, then the rest of the call. -/
def restOfCall : List (StatusEvent Bool Unit) :=
  List.replicate 8 (.kernel .isr) ++ List.replicate 30 (.kernel (.task false))

/-- The test of the main result. -/
def statusReadTest (s : StatusState Bool Unit) : StatusEvent Bool Unit → Bool
  | .kernel .isr =>
      match s.virtio.io.isr with
      | .checkStatus id =>
          s.virtio.io.disk.infoStatus id != 0#8 || (s.submitted id && !(s.wrote id).isEmpty)
      | _ => true
  | _ => true

/-- What the test says. -/
theorem statusRead_of_test {s : StatusState Bool Unit} {e : StatusEvent Bool Unit}
    (h : statusReadTest s e = true) : StatusRead s e := by
  cases e with
  | kernel e =>
      cases e with
      | isr =>
          intro id hisr
          simp only [statusReadTest, hisr, Bool.or_eq_true, Bool.and_eq_true, bne_iff_ne,
            Bool.not_eq_true', List.isEmpty_eq_false_iff] at h
          exact h
      | _ => trivial
  | _ => trivial

/-- `statusNext` where the test holds. -/
def answeredNext (s : StatusState Bool Unit) (e : StatusEvent Bool Unit) :
    Option (StatusState Bool Unit) :=
  if statusReadTest s e then statusNext s e else none

/-- What the executable step and test say. -/
theorem answeredNext_eq {s t : StatusState Bool Unit} {e : StatusEvent Bool Unit}
    (h : answeredNext s e = some t) : statusReadTest s e = true ∧ statusNext s e = some t := by
  rw [answeredNext] at h
  split at h
  · next htest => exact ⟨htest, h⟩
  · cases h

/-- A read of a device that writes the status byte, up to its end. -/
def answeredRead : List (StatusEvent Bool Unit) :=
  readRequest ++ .writeStatus 0 0#8 :: usedEntry ++ restOfCall

/-- The main result for the read that the device has answered. -/
theorem answeredRead_word :
    ∃ s, (statusSystem Bool Unit).Run statusReset answeredRead s ∧
      s.virtio.returned = [0] ∧ s.answered = [(0, [0#8])] ∧ OnDevicesWord s := by
  have hend : (answeredRead.foldlM answeredNext statusReset).map
      (fun s => (s.virtio.returned, s.answered)) = some ([0], [(0, [0#8])]) := by decide
  obtain ⟨s, hs, heq⟩ := Option.map_eq_some_iff.mp hend
  obtain ⟨hret, hans⟩ := Prod.mk.inj heq
  have hrun : (statusSystem Bool Unit).Run statusReset answeredRead s :=
    System.run_of_foldlM (fun s e t h => statusNext_step s e t (answeredNext_eq h).2) hs
  have hok : System.Run.Allowed (statusSystem Bool Unit) StatusRead statusReset answeredRead :=
    System.Run.Allowed.of_foldlM (fun s e t t' h => statusNext_det s e t t' (answeredNext_eq h).2)
      (fun s e t h => statusRead_of_test (answeredNext_eq h).1) hs
  exact ⟨s, hrun, hret, hans, (virtio_status_iff statusReset statusReset_init answeredRead).mpr
    hok answeredRead [] s (List.append_nil _).symm hrun⟩

/-- The device puts the read into the used ring and has not written its
status byte. The handler finds the `0` of the driver, and the call
returns. -/
theorem silentDevice_succeeds :
    ((readRequest ++ usedEntry ++ restOfCall).foldlM statusNext statusReset).map
        (fun s => (s.virtio.returned, s.answered)) = some ([0], [(0, [])]) ∧
    ¬ ∀ (s₀ s : StatusState Bool Unit) (es : List (StatusEvent Bool Unit)), StatusInit s₀ →
      (statusSystem Bool Unit).Run s₀ es s → OnDevicesWord s := by
  have hend : ((readRequest ++ usedEntry ++ restOfCall).foldlM statusNext statusReset).map
      (fun s => (s.virtio.returned, s.answered)) = some ([0], [(0, [])]) := by decide
  refine ⟨hend, fun hall => ?_⟩
  obtain ⟨s, hs, heq⟩ := Option.map_eq_some_iff.mp hend
  obtain ⟨hret, hans⟩ := Prod.mk.inj heq
  have hword := hall _ s _ statusReset_init (System.run_of_foldlM statusNext_step hs)
  obtain ⟨bs, hmem, hzero⟩ := hword.returned 0 (by simp [hret])
  rw [hans] at hmem
  obtain ⟨-, rfl⟩ := Prod.mk.inj (List.mem_singleton.mp hmem)
  cases hzero

end MiniRiscvOs.Proofs
