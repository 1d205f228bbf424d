import Mathlib.Data.Finset.Card
import MiniRiscvOs.Lib.Path
import MiniRiscvOs.Proofs.VirtioProgress

/-!
# `MiniRiscvOs.Proofs.VirtioLive`: the block driver on infinite runs

`Proofs.VirtioProgress` finds for each call of `virtio_disk_rw` a way to its
return. Here every way leads there, if nobody stops: no task for good in a call,
the device not while it has a request, and the handler not while there is an entry
in the used ring or it is under way (`NobodyStops`).

A call that has the lock returns; whenever a call is under way one returns then or
later; and if no new calls are made, all return (`virtioDriver_live`). Which of the
tasks that wait for the lock is next is left open.

Each agent may make steps that lead nowhere: a task spins on the lock or on
`b->disk`, and the handler comes in for nothing. So the measure counts what is
left for device and handler only while there is something (`toServe`), and in each
state one agent can be relied on (`helper`).
-/

set_option autoImplicit false

namespace MiniRiscvOs.Proofs

open MiniRiscvOs.Lib
open MiniRiscvOs.Kernel

variable {ι β : Type}

/-- Who makes steps in the driver. -/
inductive Agent (ι : Type) where
  | task (t : ι)
  | device
  | isr

/-- The event is a step of the agent. -/
def Agent.Acts : Agent ι → Option (VirtioEvent ι β) → Prop
  | .task t, e => e = some (.task t)
  | .device, e => ∃ m, e = some (.device m)
  | .isr, e => e = some .isr

/-- The device has a request to take or to go on with. -/
def DeviceBusy (io : DiskIo β) : Prop := io.lastAvail ≠ io.disk.availIdx ∨ io.inFlight ≠ []

/-- The handler has an entry to consume. -/
def EntryLeft (io : DiskIo β) : Prop := io.disk.usedIdx ≠ io.disk.usedRingIdx

/-- The agent has something to do. -/
def Agent.Busy : Agent ι → VirtioState ι β → Prop
  | .task t, s => ∃ c pc, s.task t = .running c pc
  | .device, s => DeviceBusy s.io
  | .isr, s => s.io.isr ≠ .idle ∨ EntryLeft s.io

/-! ### The measure -/

open Classical in
/-- The agent that takes the call of task `t` on. -/
noncomputable def helper (t : ι) (io : DiskIo β) : Agent ι :=
  if DeviceBusy io then .device else if EntryLeft io then .isr else .task t

open Classical in
/-- What is left for device and handler, if there is a request. -/
noncomputable def toServe (io : DiskIo β) : Nat :=
  if DeviceBusy io ∨ EntryLeft io then served io else 0

/-- How far the call of task `t` is from its return. -/
noncomputable def callRank (t : ι) (s : VirtioState ι β) : Nat :=
  match s.task t with
  | .running _ pc => 32 * rank pc + toServe s.io
  | .outside => 0

/-- The rank of a call under way. -/
theorem callRank_running {t : ι} {s : VirtioState ι β} {c : RwCall β} {pc : RwPc}
    (ht : s.task t = .running c pc) : callRank t s = 32 * rank pc + toServe s.io := by
  rw [callRank, ht]

/-- There is no more to wait for than what is served. -/
theorem toServe_le (io : DiskIo β) : toServe io ≤ served io := by
  unfold toServe
  split
  · exact Nat.le_refl _
  · exact Nat.zero_le _

/-- While the disk is quiet nobody else has work. -/
theorem Quiet.not_busy {io : DiskIo β} (h : Quiet io) : ¬ DeviceBusy io ∧ ¬ EntryLeft io :=
  ⟨fun hbusy => hbusy.elim (fun hne => hne h.taken) fun hne => hne h.inFlight,
    fun hleft => hleft h.consumed⟩

/-- The device comes first. -/
theorem helper_deviceBusy {io : DiskIo β} (h : DeviceBusy io) (t : ι) :
    helper t io = .device := if_pos h

/-- Then comes the handler. -/
theorem helper_entryLeft {io : DiskIo β} (hdev : ¬ DeviceBusy io) (h : EntryLeft io) (t : ι) :
    helper t io = .isr := by
  rw [helper, if_neg hdev, if_pos h]

/-- The only task that is relied on is the one in question. -/
theorem eq_of_helper {t u : ι} {io : DiskIo β} (h : helper t io = .task u) : u = t := by
  unfold helper at h
  split at h
  · exact nomatch h
  · split at h
    · exact nomatch h
    · exact (Agent.task.inj h).symm

/-- While the disk is quiet the task moves itself. -/
theorem Quiet.helper_eq {io : DiskIo β} (h : Quiet io) (t : ι) : helper t io = .task t := by
  obtain ⟨hdev, hleft⟩ := h.not_busy
  rw [helper, if_neg hdev, if_neg hleft]

/-- While the disk is quiet there is nothing to wait for. -/
theorem Quiet.toServe_eq {io : DiskIo β} (h : Quiet io) : toServe io = 0 := by
  obtain ⟨hdev, hleft⟩ := h.not_busy
  exact if_neg fun hor => hor.elim hdev hleft

/-- What counts for the measure while the device is busy is none of the
handler's. -/
theorem served_of_deviceBusy {io : DiskIo β} (h : DeviceBusy io) (pc : IsrPc β) :
    served { io with isr := pc } = served io := by
  unfold served
  split
  · rfl
  · rename_i htaken
    have hne : io.inFlight ≠ [] := h.resolve_left htaken
    cases hflight : io.inFlight with
    | nil => exact absurd hflight hne
    | cons r rest => rfl

section Steps

variable [DecidableEq β] {c : RwCall β} {io : DiskIo β} {pc : RwPc}

/-- A call whose request is not through is at its notify or waits. -/
theorem Phase.not_quiet (h : Phase c io pc) (hquiet : ¬ Quiet io) :
    Submitted c io.disk ∧ Served c io ∧ ∃ idx, pc = .notify idx ∨ pc = .wait idx := by
  cases pc with
  | notify idx => exact ⟨h.2.1, h.2.2, idx, Or.inl rfl⟩
  | wait idx => exact ⟨h.2.1, h.2.2, idx, Or.inr rfl⟩
  | acquire | rollback idx | panicked msg => exact h.elim
  | unlock => exact absurd h.1 hquiet
  | _ => exact absurd h.2.1 hquiet

omit [DecidableEq β] in
/-- Its request is with the device or in the used ring. -/
theorem Served.busy (h : Served c io) (hquiet : ¬ Quiet io) : DeviceBusy io ∨ EntryLeft io := by
  cases h with
  | published taken =>
      refine Or.inl (Or.inl fun heq => ?_)
      rw [← taken] at heq
      bv_omega
  | inDevice stage _ inFlight =>
      refine Or.inl (Or.inr ?_)
      rw [inFlight]
      nofun
  | used _ _ consumed | cleared _ _ consumed =>
      refine Or.inr fun heq => ?_
      rw [← consumed] at heq
      bv_omega
  | done quiet => exact absurd quiet hquiet

omit [DecidableEq β] in
/-- A handler that comes in while the device is busy finds no entry. -/
theorem Served.consumed_of_deviceBusy (h : Served c io) (hbusy : DeviceBusy io) :
    (io.isr = .idle ∨ io.isr = .test) ∧ io.disk.usedIdx = io.disk.usedRingIdx := by
  cases h with
  | published _ _ consumed isr => exact ⟨isr, consumed⟩
  | inDevice _ _ _ consumed isr => exact ⟨isr, consumed⟩
  | used taken inFlight | cleared taken inFlight =>
      exact (hbusy.elim (fun hne => hne taken) fun hne => hne inFlight).elim
  | done quiet => exact absurd hbusy quiet.not_busy.1

/-- A step of the handler leaves the measure as it is and is not relied on, or it
takes the measure down. -/
theorem Phase.isr_live (h : Phase c io pc) (t : ι) :
    toServe (Kernel.isrStep io) < toServe io ∨
      (toServe (Kernel.isrStep io) = toServe io ∧
        helper t (Kernel.isrStep io) = helper t io ∧ helper t io ≠ .isr) := by
  -- On a quiet disk the handler only goes through its test.
  by_cases hquiet : Quiet io
  · obtain ⟨pc', heq, hquiet'⟩ := hquiet.isrStep
    right
    rw [heq, hquiet'.toServe_eq, hquiet.toServe_eq, hquiet'.helper_eq, hquiet.helper_eq]
    exact ⟨rfl, rfl, nofun⟩
  · obtain ⟨hsub, hserved, -⟩ := h.not_quiet hquiet
    by_cases hdev : DeviceBusy io
    · -- While the device is busy no entry is left for the handler.
      obtain ⟨hisr, hconsumed⟩ := hserved.consumed_of_deviceBusy hdev
      obtain ⟨pc', heq, -⟩ := isrStep_of_consumed hisr hconsumed
      right
      rw [heq]
      refine ⟨?_, rfl, ?_⟩
      · have hdev' : DeviceBusy { io with isr := pc' } := hdev
        rw [toServe, toServe, if_pos (Or.inl hdev), if_pos (Or.inl hdev'),
          served_of_deviceBusy hdev]
      · rw [helper_deviceBusy hdev]
        nofun
    · have hleft : EntryLeft io := (hserved.busy hquiet).resolve_left hdev
      left
      -- With an entry of the used ring the handler is the helper.
      refine Nat.lt_of_le_of_lt (toServe_le _) ?_
      rw [toServe, if_pos (Or.inr hleft)]
      exact hserved.isr_nearer hsub hleft

/-- A move of the device takes the measure down. -/
theorem Phase.device_live (h : Phase c io pc) {io' : DiskIo β} {m : DevMove}
    (hstep : DevStep io m io') : toServe io' < toServe io := by
  have hquiet : ¬ Quiet io := fun hquiet => hquiet.not_devStep m hstep
  obtain ⟨hsub, hserved, -⟩ := h.not_quiet hquiet
  refine Nat.lt_of_le_of_lt (toServe_le _) ?_
  rw [toServe, if_pos (hserved.busy hquiet)]
  exact hserved.dev_nearer hsub hstep

/-- Short of `lock_free` a step of the driving task takes it on, or waits for
`b->disk` and is not relied on. -/
theorem Phase.task_live (h : Phase c io pc) (hpc : pc ≠ .unlock) (t : ι) :
    32 * rank (Kernel.rwStep c io pc).2 + toServe (Kernel.rwStep c io pc).1
        < 32 * rank pc + toServe io ∨
      (Kernel.rwStep c io pc = (io, pc) ∧ helper t io ≠ .task t) := by
  -- It waits only in the loop over `b->disk`, and while that is set.
  by_cases hspin : ∃ idx, pc = .wait idx ∧ io.disk.blkDisk c.b = 1#32
  · obtain ⟨idx, rfl, hdisk⟩ := hspin
    obtain ⟨-, -, hserved⟩ := h
    -- The flag is set, so the request has not been served.
    have hquiet : ¬ Quiet io := by
      intro hquiet
      rw [hserved.cleared_of_quiet hquiet] at hdisk
      exact absurd hdisk (by decide)
    right
    refine ⟨by simp [Kernel.rwStep, hdisk], ?_⟩
    by_cases hdev : DeviceBusy io
    · rw [helper_deviceBusy hdev]
      simp
    · rw [helper_entryLeft hdev ((hserved.busy hquiet).resolve_left hdev)]
      simp
  · left
    -- Every other step lowers the rank, which outweighs what is left to serve.
    have hlt := h.rank_lt hpc fun idx heq hdisk => hspin ⟨idx, heq, hdisk⟩
    have hle := (toServe_le (Kernel.rwStep c io pc).1).trans (served_le _)
    omega

end Steps

/-! ### One call -/

section Paths

variable [DecidableEq ι] [DecidableEq β]

/-- The call `c` of task `t` has the lock. -/
def HasLock (t : ι) (c : RwCall β) (s : VirtioState ι β) : Prop :=
  ∃ pc, s.task t = .running c pc ∧ pc ≠ .acquire

/-- Each step leaves the call of task `t` as near to its return as it is, or takes
it nearer, as a step of the helper does. -/
theorem HasLock.step {t : ι} {c : RwCall β} {s s' : VirtioState ι β} {e : VirtioEvent ι β}
    (h : HasLock t c s) (hs : (virtioSystem ι β).Reachable s) (hstep : VirtioStep s e s') :
    c.id ∈ s'.returned ∨
      (HasLock t c s' ∧ (callRank t s' < callRank t s ∨
        (callRank t s' = callRank t s ∧ helper t s'.io = helper t s.io ∧
          ¬ (helper t s.io).Acts (some e)))) := by
  obtain ⟨pc, ht, hpc⟩ := h
  have hinv := driverInv_reachable hs
  have hok := hinv.tasks t
  rw [ht] at hok
  obtain ⟨hphase, hlock⟩ := hok.2.2.2 hpc
  -- Where neither the task nor the disk moves the rank is the same.
  have hrank : ∀ v : VirtioState ι β, v.task t = s.task t → v.io = s.io →
      callRank t v = callRank t s := by
    intro v htask hio
    rw [callRank, callRank, htask, hio]
  cases e with
  | setBlockno b n =>
      obtain ⟨-, rfl⟩ := hstep
      refine Or.inr ⟨⟨pc, ht, hpc⟩, Or.inr ⟨rfl, rfl, ?_⟩⟩
      cases helper t s.io <;> nofun
  | call u b write =>
      obtain ⟨-, hu, rfl⟩ := hstep
      have hut : t ≠ u := by
        rintro rfl
        exact nomatch ht.symm.trans hu
      refine Or.inr ⟨⟨pc, (Function.update_of_ne hut ..).trans ht, hpc⟩,
        Or.inr ⟨hrank _ (Function.update_of_ne hut ..) rfl, rfl, ?_⟩⟩
      cases helper t s.io <;> nofun
  | isr =>
      obtain rfl := hstep
      refine Or.inr ⟨⟨pc, ht, hpc⟩, ?_⟩
      rw [callRank_running ht, callRank_running (s := { s with io := isrStep s.io }) ht]
      rcases hphase.isr_live t with hlt | ⟨heq, hsame, hne⟩
      · exact Or.inl (Nat.add_lt_add_left hlt _)
      · refine Or.inr ⟨congrArg (32 * rank pc + ·) heq, hsame, ?_⟩
        cases hhelper : helper t s.io with
        | isr => exact absurd hhelper hne
        | task u | device => nofun
  | device m =>
      obtain ⟨io, hdev, rfl⟩ := hstep
      refine Or.inr ⟨⟨pc, ht, hpc⟩, Or.inl ?_⟩
      rw [callRank_running ht, callRank_running (s := { s with io := io }) ht]
      exact Nat.add_lt_add_left (Phase.device_live hphase hdev) _
  | task u =>
      obtain ⟨hisr, d, qc, hu, rfl⟩ := hstep
      by_cases hut : t = u
      · subst hut
        obtain ⟨rfl, rfl⟩ := RwTask.running.inj (ht.symm.trans hu)
        by_cases hunl : pc = .unlock
        · subst hunl
          exact Or.inl List.mem_cons_self
        · -- Between `acquire` and `unlock` a step of the task is one of `rwStep`.
          have heq : taskStep s t c pc = { s with
              io := (Kernel.rwStep c s.io pc).1
              task := Function.update s.task t (.running c (Kernel.rwStep c s.io pc).2) } := by
            cases pc <;> first | rfl | exact absurd rfl hpc | exact absurd rfl hunl
          have hacq : (Kernel.rwStep c s.io pc).2 ≠ .acquire := by
            intro hbad
            have hnext := hphase.rwStep hunl hisr
            rw [hbad] at hnext
            exact hnext
          have ht' : (taskStep s t c pc).task t = .running c (Kernel.rwStep c s.io pc).2 := by
            rw [heq]
            exact Function.update_self ..
          refine Or.inr ⟨⟨_, ht', hacq⟩, ?_⟩
          rw [callRank_running ht, callRank_running ht', heq]
          rcases hphase.task_live hunl t with hlt | ⟨hsame, hne⟩
          · exact Or.inl hlt
          · rw [hsame]
            refine Or.inr ⟨rfl, rfl, ?_⟩
            cases hhelper : helper t s.io with
            | task u => exact absurd (eq_of_helper hhelper ▸ hhelper) hne
            | device | isr => nofun
      · -- Any other task in a call waits for the lock.
        have hqc : qc = .acquire := by
          by_contra hne
          exact hut (hinv.unique t u (driving_of_running ht hpc) (driving_of_running hu hne))
        subst hqc
        have hsame : (taskStep s u d .acquire).task t = s.task t := Function.update_of_ne hut ..
        refine Or.inr ⟨⟨pc, hsame.trans ht, hpc⟩, Or.inr ⟨hrank _ hsame rfl, rfl, ?_⟩⟩
        cases hagent : helper t s.io with
        | task v =>
            intro hacts
            have hvu : u = v := VirtioEvent.task.inj (Option.some.inj hacts)
            exact hut ((eq_of_helper hagent).symm.trans hvu.symm)
        | device | isr => nofun

/-- No task stops for good in a call, the device not with a request, and the
handler not with an entry to consume and not on its way. -/
def NobodyStops (P : (virtioSystem ι β).withIdle.Path) : Prop :=
  ∀ a : Agent ι, P.Fair (fun _ e => a.Acts e) a.Busy

variable {P : (virtioSystem ι β).withIdle.Path}

/-- A call that has the lock returns. -/
theorem hasLock_leadsTo_returned (h₀ : (virtioSystem ι β).withIdle.Reachable (P.state 0))
    (hfair : NobodyStops P) (t : ι) (c : RwCall β) :
    P.LeadsTo (HasLock t c) fun s => c.id ∈ s.returned := by
  refine System.Path.leadsTo_of_measure h₀ (callRank t) (fun s => helper t s.io) hfair ?_ ?_
  · rintro s ⟨pc, ht, -⟩ -
    show (helper t s.io).Busy s
    by_cases hdev : DeviceBusy s.io
    · rw [helper_deviceBusy hdev]
      exact hdev
    · by_cases hleft : EntryLeft s.io
      · rw [helper_entryLeft hdev hleft]
        exact Or.inr hleft
      · rw [helper, if_neg hdev, if_neg hleft]
        exact ⟨c, pc, ht⟩
  · rintro s (_ | e) s' hs hlock - hstep
    · obtain rfl := hstep
      refine Or.inr ⟨hlock, Or.inr ⟨rfl, rfl, ?_⟩⟩
      cases helper t s'.io <;> nofun
    · exact hlock.step hs.of_withIdle hstep

/-- A call has the lock, or one that waits for it finds it free. -/
theorem running_leadsTo_hasLock (h₀ : (virtioSystem ι β).withIdle.Reachable (P.state 0))
    (hfair : NobodyStops P) (t : ι) (c : RwCall β) :
    P.LeadsTo (fun s => ∃ pc, s.task t = .running c pc) fun s => ∃ u d, HasLock u d s := by
  have hdriving : ∀ s : VirtioState ι β, (¬ ∃ u d, HasLock u d s) → ∀ u, ¬ Driving (s.task u) := by
    intro s hnone u hu
    cases hτ : s.task u with
    | outside =>
        rw [hτ] at hu
        exact hu
    | running d qc =>
        rw [hτ] at hu
        exact hnone ⟨u, d, qc, hτ, hu⟩
  refine System.Path.leadsTo_of_agent h₀ (hfair (.task t)) (fun s ⟨pc, ht⟩ _ => ⟨c, pc, ht⟩) ?_
  rintro s (_ | e) s' hs ⟨pc, ht⟩ hnone hstep
  · obtain rfl := hstep
    exact Or.inr ⟨⟨pc, ht⟩, nofun⟩
  have hfree : s.vdiskLock = 0#32 := by
    by_contra hne
    obtain ⟨u, hu⟩ := lockHeld_reachable hs.of_withIdle hne
    exact hdriving s hnone u hu
  cases e with
  | setBlockno b n =>
      obtain ⟨-, rfl⟩ := hstep
      exact Or.inr ⟨⟨pc, ht⟩, nofun⟩
  | isr =>
      obtain rfl := hstep
      exact Or.inr ⟨⟨pc, ht⟩, nofun⟩
  | device m =>
      obtain ⟨io, -, rfl⟩ := hstep
      exact Or.inr ⟨⟨pc, ht⟩, nofun⟩
  | call u b write =>
      obtain ⟨-, hu, rfl⟩ := hstep
      have hut : t ≠ u := by
        rintro rfl
        exact nomatch ht.symm.trans hu
      exact Or.inr ⟨⟨pc, (Function.update_of_ne hut ..).trans ht⟩, nofun⟩
  | task u =>
      obtain ⟨-, d, qc, hu, rfl⟩ := hstep
      obtain rfl : qc = .acquire := by
        by_contra hne
        exact hnone ⟨u, d, qc, hu, hne⟩
      -- Whoever it is, it gets the lock.
      refine Or.inl ⟨u, d, .allocTest [] 0, ?_, nofun⟩
      simp [taskStep, hfree]

/-- What has returned stays so, and a call that is under way stays so or
returns. -/
theorem returned_step {s s' : VirtioState ι β} {e : Option (VirtioEvent ι β)}
    (hstep : (virtioSystem ι β).withIdle.step s e s') :
    (∀ id ∈ s.returned, id ∈ s'.returned) ∧
    (∀ t c pc, s.task t = .running c pc →
      c.id ∈ s'.returned ∨ ∃ pc', s'.task t = .running c pc') ∧
    ((∀ t b write, e ≠ some (.call t b write)) → s'.nextCall = s.nextCall) := by
  rcases e with _ | e
  · obtain rfl := hstep
    exact ⟨fun _ h => h, fun _ _ pc ht => Or.inr ⟨pc, ht⟩, fun _ => rfl⟩
  cases e with
  | setBlockno b n =>
      obtain ⟨-, rfl⟩ := hstep
      exact ⟨fun _ h => h, fun _ _ pc ht => Or.inr ⟨pc, ht⟩, fun _ => rfl⟩
  | isr =>
      obtain rfl := hstep
      exact ⟨fun _ h => h, fun _ _ pc ht => Or.inr ⟨pc, ht⟩, fun _ => rfl⟩
  | device m =>
      obtain ⟨io, -, rfl⟩ := hstep
      exact ⟨fun _ h => h, fun _ _ pc ht => Or.inr ⟨pc, ht⟩, fun _ => rfl⟩
  | call u b write =>
      obtain ⟨-, hu, rfl⟩ := hstep
      refine ⟨fun _ h => h, fun t c pc ht => Or.inr ⟨pc, ?_⟩, fun hno => absurd rfl (hno u b write)⟩
      have hut : t ≠ u := by
        rintro rfl
        exact nomatch ht.symm.trans hu
      exact (Function.update_of_ne hut ..).trans ht
  | task u =>
      obtain ⟨-, d, qc, hu, rfl⟩ := hstep
      -- Only the return adds a number to those that have returned.
      by_cases hunl : qc = .unlock
      · subst hunl
        refine ⟨fun _ h => List.mem_cons_of_mem _ h, fun t c pc ht => ?_, fun _ => rfl⟩
        by_cases hut : t = u
        · subst hut
          obtain ⟨rfl, -⟩ := RwTask.running.inj (hu.symm.trans ht)
          exact Or.inl List.mem_cons_self
        · exact Or.inr ⟨pc, (Function.update_of_ne hut ..).trans ht⟩
      · have hnext : ∃ qc', (taskStep s u d qc).task = Function.update s.task u (.running d qc') ∧
            (taskStep s u d qc).returned = s.returned ∧
            (taskStep s u d qc).nextCall = s.nextCall := by
          cases qc with
          | unlock => exact absurd rfl hunl
          | _ => exact ⟨_, rfl, rfl, rfl⟩
        obtain ⟨qc', htask, hreturned, hnumber⟩ := hnext
        refine ⟨fun _ h => hreturned ▸ h, fun t c pc ht => Or.inr ?_, fun _ => hnumber⟩
        rw [htask]
        by_cases hut : t = u
        · subst hut
          obtain ⟨rfl, -⟩ := RwTask.running.inj (hu.symm.trans ht)
          exact ⟨qc', Function.update_self ..⟩
        · exact ⟨pc, (Function.update_of_ne hut ..).trans ht⟩

/-- A call that has returned stays so. -/
theorem returned_mono {n m : Nat} (hnm : n ≤ m) : ∀ id ∈ (P.state n).returned,
    id ∈ (P.state m).returned := by
  induction m, hnm using Nat.le_induction with
  | base => exact fun _ h => h
  | succ m _ ih => exact fun id h => (returned_step (P.steps m)).1 id (ih id h)

/-- A call under way is under way, or has returned. -/
theorem under_way_or_returned {n m : Nat} (hnm : n ≤ m) {t : ι} {c : RwCall β} {pc : RwPc}
    (ht : (P.state n).task t = .running c pc) :
    c.id ∈ (P.state m).returned ∨ ∃ pc', (P.state m).task t = .running c pc' := by
  induction m, hnm using Nat.le_induction with
  | base => exact Or.inr ⟨pc, ht⟩
  | succ m _ ih =>
      rcases ih with hret | ⟨pc', ht'⟩
      · exact Or.inl ((returned_step (P.steps m)).1 _ hret)
      · exact (returned_step (P.steps m)).2.1 t c pc' ht'

/-- Whenever a call is under way, some call returns then or later. -/
theorem some_call_returns (h₀ : (virtioSystem ι β).withIdle.Reachable (P.state 0)) (hfair : NobodyStops P)
    {n : Nat} {t : ι} {c : RwCall β} {pc : RwPc} (ht : (P.state n).task t = .running c pc) :
    ∃ m id, n ≤ m ∧ id ∈ (P.state m).returned ∧ id ∉ (P.state n).returned := by
  obtain ⟨k, hnk, u, d, hlock⟩ := running_leadsTo_hasLock h₀ hfair t c n ⟨pc, ht⟩
  obtain ⟨m, hkm, hret⟩ := hasLock_leadsTo_returned h₀ hfair u d k hlock
  refine ⟨m, d.id, Nat.le_trans hnk hkm, hret, fun hbefore => ?_⟩
  obtain ⟨qc, hu, -⟩ := hlock
  have hok := (driverInv_reachable (P.reachable h₀ k).of_withIdle).tasks u
  rw [hu] at hok
  exact hok.2.1 (returned_mono hnk _ hbefore)

/-- The numbers below `k` of calls that have not returned. -/
def unreturned (k : Nat) (s : VirtioState ι β) : Finset Nat :=
  (Finset.range k).filter fun id => id ∉ s.returned

/-- A return makes them fewer. -/
theorem unreturned_lt {k n m : Nat} (hnm : n ≤ m) {id : Nat} (hid : id < k)
    (hret : id ∈ (P.state m).returned) (hnot : id ∉ (P.state n).returned) :
    (unreturned k (P.state m)).card < (unreturned k (P.state n)).card := by
  apply Finset.card_lt_card
  refine (Finset.ssubset_iff_of_subset fun i hi => ?_).mpr ⟨id, ?_, fun hin => ?_⟩
  · obtain ⟨hrange, hopen⟩ := Finset.mem_filter.mp hi
    exact Finset.mem_filter.mpr ⟨hrange, fun hbefore => hopen (returned_mono hnm i hbefore)⟩
  · exact Finset.mem_filter.mpr ⟨Finset.mem_range.mpr hid, hnot⟩
  · exact (Finset.mem_filter.mp hin).2 hret

/-- If from `n` on no new call is made, every call that is under way returns.
Induction on the calls that have not returned. -/
theorem all_calls_return (h₀ : (virtioSystem ι β).withIdle.Reachable (P.state 0))
    (hfair : NobodyStops P) {n : Nat}
    (hcalls : ∀ m, n ≤ m → ∀ t b write, P.label m ≠ some (.call t b write)) {t : ι}
    {c : RwCall β} {pc : RwPc} (ht : (P.state n).task t = .running c pc) :
    ∃ m, n ≤ m ∧ c.id ∈ (P.state m).returned := by
  -- The counter stands still from `n` on.
  have hnumber : ∀ m, n ≤ m → (P.state m).nextCall = (P.state n).nextCall := by
    intro m hnm
    induction m, hnm using Nat.le_induction with
    | base => rfl
    | succ m hnm ih => exact ((returned_step (P.steps m)).2.2 (hcalls m hnm)).trans ih
  have hmain : ∀ k m, n ≤ m → (unreturned (P.state n).nextCall (P.state m)).card = k →
      ∃ m, n ≤ m ∧ c.id ∈ (P.state m).returned := by
    intro k
    induction k using Nat.strongRecOn with
    | ind k ih =>
        rintro m hnm rfl
        rcases under_way_or_returned hnm ht with hret | ⟨pc', ht'⟩
        · exact ⟨m, hnm, hret⟩
        · obtain ⟨l, id, hml, hret, hnot⟩ := some_call_returns h₀ hfair ht'
          have hnl := Nat.le_trans hnm hml
          -- This call was made before `n`, so one fewer of those calls is left.
          have hid : id < (P.state n).nextCall := by
            rw [← hnumber l hnl]
            exact ((driverInv_reachable (P.reachable h₀ l).of_withIdle).returned id hret).1
          exact ih _ (unreturned_lt hml hid hret hnot) l hnl rfl
  exact hmain _ n (Nat.le_refl n) rfl

/-- The block driver on every infinite run on which nobody stops: a call that has
the lock returns; whenever a call is under way, be it that it waits for the lock,
one returns then or later; and if no new calls are made, all return. -/
theorem virtioDriver_live (P : (virtioSystem ι β).withIdle.Path)
    (h₀ : (virtioSystem ι β).withIdle.Reachable (P.state 0)) (hfair : NobodyStops P) (n : Nat) :
    (∀ t c, HasLock t c (P.state n) → ∃ m, n ≤ m ∧ c.id ∈ (P.state m).returned) ∧
    ((∃ t c pc, (P.state n).task t = .running c pc) →
      ∃ m id, n ≤ m ∧ id ∈ (P.state m).returned ∧ id ∉ (P.state n).returned) ∧
    ((∀ m, n ≤ m → ∀ t b write, P.label m ≠ some (.call t b write)) →
      ∀ t c pc, (P.state n).task t = .running c pc →
        ∃ m, n ≤ m ∧ c.id ∈ (P.state m).returned) := by
  refine ⟨fun t c hlock => hasLock_leadsTo_returned h₀ hfair t c n hlock, ?_,
    fun hcalls t c pc ht => all_calls_return h₀ hfair hcalls ht⟩
  rintro ⟨t, c, pc, ht⟩
  exact some_call_returns h₀ hfair ht

end Paths

/-! ### Two calls on one block -/

/-- From the two calls on, with no other call, to an end at which nothing is left to
do. -/
theorem twoCalls_path : ∃ P : (virtioSystem Bool Unit).withIdle.Path,
    P.state 0 = twoCalls ∧ NobodyStops P ∧ ∀ n t b write, P.label n ≠ some (.call t b write) := by
  have hinv := driverInv_reachable twoCalls_reachable
  have ht₀ : twoCalls.task false = .running ⟨(), false, 1#64, 0⟩ (.allocTest [] 0) := rfl
  obtain ⟨es, s₁, hrun, hes, hinv₁, -, hisr₁, hlock₁, hout₁, hothers₁⟩ := hinv.finish ht₀ (by simp)
  have ht₁ : s₁.task true = .running ⟨(), true, 1#64, 1⟩ .acquire := hothers₁ true (by decide)
  have hstep : VirtioStep s₁ (.task true) (taskStep s₁ true ⟨(), true, 1#64, 1⟩ .acquire) :=
    ⟨hisr₁, _, .acquire, ht₁, rfl⟩
  have ht₂ : (taskStep s₁ true ⟨(), true, 1#64, 1⟩ .acquire).task true =
      .running ⟨(), true, 1#64, 1⟩ (.allocTest [] 0) := by
    simp [taskStep, hlock₁]
  obtain ⟨fs, s₂, hrun₂, hfs, hinv₂, -, hisr₂, -, hout₂, hothers₂⟩ :=
    (hinv₁.step hstep).finish ht₂ (by simp)
  have hrest : ∀ u, s₂.task u = .outside := by
    intro u
    cases u with
    | true => exact hout₂
    | false =>
        have hne : false ≠ true := by decide
        rw [hothers₂ false hne]
        exact hout₁
  have htake : (virtioSystem Bool Unit).Run twoCalls (es ++ [.task true])
      (taskStep s₁ true ⟨(), true, 1#64, 1⟩ .acquire) := .snoc hrun hstep
  obtain ⟨gs, hgs⟩ : ∃ gs, gs = es ++ [.task true] ++ fs := ⟨_, rfl⟩
  have hwhole : (virtioSystem Bool Unit).Run twoCalls gs s₂ := hgs ▸ htake.append hrun₂
  -- There they stay.
  obtain ⟨P, hP, hfirst, hlast⟩ := System.Path.of_run hwhole.withIdle
    (System.Path.stutter (M := (virtioSystem Bool Unit).withIdle) (e := none) rfl) rfl
  have hquiet : Quiet s₂.io := by
    refine (hinv₂.rest fun u => ?_).1
    rw [hrest u]
    exact id
  refine ⟨P, hP, fun a => ?_, fun n t b write heq => ?_⟩
  · refine System.Path.fair_of_idle (gs.map some).length fun n => ?_
    rw [(hlast n).1]
    show ¬ a.Busy s₂
    cases a with
    | task u =>
        rintro ⟨c, pc, hu⟩
        cases (hrest u).symm.trans hu
    | device => exact hquiet.not_busy.1
    | isr => exact fun hbusy => hbusy.elim (fun hne => hne hisr₂) hquiet.not_busy.2
  · by_cases hn : n < (gs.map some).length
    · obtain ⟨e, hin, he⟩ := List.mem_map.mp (hfirst n hn)
      obtain rfl : e = .call t b write := Option.some.inj (he.trans heq)
      rw [hgs] at hin
      rcases List.mem_append.mp hin with hin | hin
      · rcases List.mem_append.mp hin with hin | hin
        · exact hes _ hin
        · cases List.mem_singleton.mp hin
      · exact hfs _ hin
    · obtain ⟨d, rfl⟩ := Nat.exists_eq_add_of_le (Nat.le_of_not_lt hn)
      have hlabel : P.label _ = none := (hlast d).2
      cases heq.symm.trans hlabel

/-- The call that has the lock returns, and the one that waits for it. -/
theorem twoCalls_live : ∃ P : (virtioSystem Bool Unit).withIdle.Path, P.state 0 = twoCalls ∧
    (∃ m, 0 ≤ m ∧ 0 ∈ (P.state m).returned) ∧ ∃ m, 0 ≤ m ∧ 1 ∈ (P.state m).returned := by
  obtain ⟨P, hP, hfair, hcalls⟩ := twoCalls_path
  obtain ⟨hlock, -, hall⟩ := virtioDriver_live P (hP ▸ twoCalls_reachable.withIdle) hfair 0
  refine ⟨P, hP, hlock false ⟨(), false, 1#64, 0⟩ ⟨.allocTest [] 0, ?_, nofun⟩,
    hall (fun m _ => hcalls m) true ⟨(), true, 1#64, 1⟩ .acquire ?_⟩
  · rw [hP]
    rfl
  · rw [hP]
    rfl

end MiniRiscvOs.Proofs
