import MiniRiscvOs.Kernel.Timer

/-!
# `MiniRiscvOs.Proofs.Timer`: when the timer is armed one interval ahead

Both routines of `timer.c` read the low word of `mtime`, add the interval,
and store the low word of the sum. They never touch the upper word of
`mtimecmp`, so it is zero in every run (`upperZero_reachable`). What they
arm is the sum modulo `2 ^ 32`, and that is the sum exactly while it has 32
bits (`timer_rearmed_iff`), for about the first seven minutes at 10 MHz.

The sum modulo `2 ^ 32` is never the greater of the two, so the interrupt never
comes too late. But once `mtime` has more than 32 bits it does not go away
(`timer_never_late`).
-/

set_option autoImplicit false

namespace MiniRiscvOs.Proofs

open MiniRiscvOs.Lib
open MiniRiscvOs.Kernel.Timer

/-- The compare register is one interval ahead of `t`: the interrupt is not
pending before `t + interval`, and it is from then on. -/
structure Rearmed (t : BitVec 64) (s : Machine) : Prop where
  compare : s.mtimecmp.toNat = t.toNat + interval.toNat
  pending : ∀ now, s.pendingAt now ↔ t.toNat + interval.toNat ≤ now.toNat

/-- The condition on the time of a call: one interval later `mtime` still has
32 bits. -/
def InFirstEpoch (t : BitVec 64) : Prop := t.toNat + interval.toNat < 2 ^ 32

instance (t : BitVec 64) : Decidable (InFirstEpoch t) :=
  inferInstanceAs (Decidable (_ < _))

/-- The upper word of `mtimecmp`. -/
def upperWord (s : Machine) : Word := load32 s.mem (clint + 0x4004#32)

/-! ### One call -/

/-- What a call at time `t` leaves in `mtimecmp`, when the upper word is
zero: the sum of the low words, without its carry. -/
structure ArmsLow (t : BitVec 64) (s : Machine) : Prop where
  upper : upperWord s = 0#32
  lower : load32 s.mem (clint + 0x4000#32) = t.setWidth 32 + interval

/-- The whole register as a number, when the upper word is clear. -/
theorem toNat_mtimecmp {t : BitVec 64} {s : Machine} (h : ArmsLow t s) :
    s.mtimecmp.toNat = (t.toNat + interval.toNat) % 2 ^ 32 := by
  have hupper := h.upper
  rw [upperWord] at hupper
  have happend : ∀ w : Word, (0#32 ++ w).toNat = w.toNat := by
    intro w
    rw [BitVec.toNat_append]
    simp
  rw [Machine.mtimecmp, hupper, h.lower, happend, BitVec.toNat_add, BitVec.toNat_setWidth,
    Nat.mod_add_mod]

/-- The low word alone is right exactly in the first epoch. -/
theorem rearmed_iff {t : BitVec 64} {s : Machine} (h : ArmsLow t s) :
    Rearmed t s ↔ InFirstEpoch t := by
  have hlow := toNat_mtimecmp h
  unfold InFirstEpoch
  constructor
  · intro hre
    have hcompare := hre.compare
    omega
  · intro hepoch
    have hcompare : s.mtimecmp.toNat = t.toNat + interval.toNat := by
      rw [hlow, Nat.mod_eq_of_lt hepoch]
    refine ⟨hcompare, fun now => ?_⟩
    rw [Machine.pendingAt, BitVec.le_def, hcompare]

/-- A store of a word outside of the upper word keeps it. -/
theorem load32_upper_store32 (m : Mem) {a : Addr} (w : Word)
    (ha : Apart a 4 (clint + 0x4004#32) 4) :
    load32 (store32 m a w) (clint + 0x4004#32) = load32 m (clint + 0x4004#32) :=
  load32_store32_of_disjoint m w fun _ hx => ha.symm.not_inRange hx

/-- The store of the two routines: the low word of hart 0's register. -/
theorem armsLow_store {s s' : Machine} (hupper : upperWord s = 0#32)
    (hmem : ∀ x, InRange (clint + 0x4000#32) 8 x →
      s'.mem x = store32 s.mem (clintMtimecmp 0#32) (s.load clintMtime + interval) x) :
    ArmsLow s.mtime s' := by
  have hlow : clintMtimecmp 0#32 = clint + 0x4000#32 := by decide
  have hmtime : s.load clintMtime = s.mtime.setWidth 32 := if_pos rfl
  rw [hlow, hmtime] at hmem
  constructor
  · rw [upperWord, ← hupper, upperWord]
    refine Eq.trans ?_ (load32_upper_store32 s.mem (a := clint + 0x4000#32)
      (s.mtime.setWidth 32 + interval) (by decide))
    refine load32_congr fun x hx => hmem x ?_
    exact inRange_of_add (i := 4) (n := 4) (by decide) (by decide) hx
  · refine Eq.trans ?_ (load32_store32_same s.mem (clint + 0x4000#32) _)
    exact load32_congr fun x hx => hmem x (hx.mono (by decide))

/-- The scratch area lies in RAM, away from the CLINT. -/
theorem not_inRange_scratch (E : TimerEnv) {k : Nat} (hk : k + 4 ≤ 160) {x : Addr}
    (hx : InRange (clint + 0x4000#32) 8 x) :
    ¬ InRange (E.timerScratch + BitVec.ofNat 32 k) 4 x := by
  have hram := E.ram_le
  have hend := E.end_le
  unfold InRange clint at *
  bv_omega

/-- `timer_init` writes the lower word only. -/
theorem armsLow_timerInit (E : TimerEnv) {s : Machine} (hupper : upperWord s = 0#32) :
    ArmsLow s.mtime (timerInit E 0#32 s) := by
  refine armsLow_store hupper fun x hx => ?_
  have h12 := not_inRange_scratch E (k := 12) (by decide) hx
  have h16 := not_inRange_scratch E (k := 16) (by decide) hx
  have hrow : E.timerScratch + 20#32 * 0#32 = E.timerScratch := by simp
  simp only [timerInit, hrow]
  rw [store32_of_not_inRange _ _ h16, store32_of_not_inRange _ _ h12]

/-- So does `timer_handler`. -/
theorem armsLow_timerHandler {s : Machine} (hupper : upperWord s = 0#32) :
    ArmsLow s.mtime (timerHandler 0#32 s) :=
  armsLow_store hupper fun _ _ => rfl

/-! ### Runs -/

section Runs

variable {E : TimerEnv} {s t : TimerState} {e : TimerEvent}

/-- No event writes the upper word of `mtimecmp`. -/
theorem upperZero_step (hs : upperWord s.machine = 0#32) (hstep : TimerStep E s e t) :
    upperWord t.machine = 0#32 := by
  cases e with
  | advance cycles =>
      obtain rfl := hstep
      exact hs
  | timerInit =>
      obtain rfl := hstep
      exact (armsLow_timerInit E hs).upper
  | timerHandler =>
      obtain rfl := hstep
      exact (armsLow_timerHandler hs).upper
  | store a b =>
      obtain ⟨hout, rfl⟩ := hstep
      rw [← hs]
      refine load32_congr fun x hx => store8_of_ne _ _ ?_
      rintro rfl
      exact hout (inRange_of_add (i := 0x4004) (by decide) (by decide) hx)

/-- Nothing ever writes the upper word. -/
theorem upperZero_reachable (hs : (timerSystem E).Reachable s) : upperWord s.machine = 0#32 :=
  System.invariant (M := timerSystem E) (I := fun s => upperWord s.machine = 0#32)
    (fun _ hinit => hinit.1) (fun _ _ _ => upperZero_step) hs

/-- A call of one of the routines happens in the first epoch. -/
def CallsInFirstEpoch (s : TimerState) : TimerEvent → Prop
  | .timerInit => InFirstEpoch s.machine.mtime
  | .timerHandler => InFirstEpoch s.machine.mtime
  | _ => True

/-- After its last call the machine stays armed one interval ahead. -/
def StaysArmed (s : TimerState) : Prop := ∀ t, s.armedAt = some t → Rearmed t s.machine

/-- After its last call the machine stays armed as the call has left it. -/
def StaysLow (s : TimerState) : Prop := ∀ t, s.armedAt = some t → ArmsLow t s.machine

/-- Nothing but a call of the routines changes `mtimecmp`. -/
theorem staysLow_step (hs : upperWord s.machine = 0#32 ∧ StaysLow s) (hstep : TimerStep E s e t) :
    upperWord t.machine = 0#32 ∧ StaysLow t := by
  refine ⟨upperZero_step hs.1 hstep, fun at' hat => ?_⟩
  cases e with
  | advance cycles =>
      obtain rfl := hstep
      exact ⟨(hs.2 at' hat).upper, (hs.2 at' hat).lower⟩
  | timerInit =>
      obtain rfl := hstep
      obtain rfl := Option.some.inj hat
      exact armsLow_timerInit E hs.1
  | timerHandler =>
      obtain rfl := hstep
      obtain rfl := Option.some.inj hat
      exact armsLow_timerHandler hs.1
  | store a b =>
      obtain ⟨hout, rfl⟩ := hstep
      have hlow := hs.2 at' hat
      -- The store lies outside of the CLINT, so both words are kept.
      have hword : ∀ i, i + 4 ≤ 0x10000 →
          load32 (store8 s.machine.mem a b) (clint + BitVec.ofNat 32 i)
            = load32 s.machine.mem (clint + BitVec.ofNat 32 i) := by
        intro i hi
        refine load32_congr fun x hx => store8_of_ne _ _ ?_
        rintro rfl
        exact hout (inRange_of_add hi (by decide) hx)
      exact ⟨(hword 0x4004 (by decide)).trans hlow.upper,
        (hword 0x4000 (by decide)).trans hlow.lower⟩

/-- The invariant holds in every reachable state. -/
theorem staysLow_reachable (hs : (timerSystem E).Reachable s) : StaysLow s := by
  have hboth : upperWord s.machine = 0#32 ∧ StaysLow s := by
    refine System.invariant (M := timerSystem E)
      (I := fun s => upperWord s.machine = 0#32 ∧ StaysLow s) (fun s hinit => ?_)
      (fun _ _ _ => staysLow_step) hs
    refine ⟨hinit.1, fun t hat => ?_⟩
    rw [hinit.2] at hat
    cases hat
  exact hboth.2

/-- Where all calls are in the first epoch, so is the last. -/
theorem lastCall_step (hs : ∀ at', s.armedAt = some at' → InFirstEpoch at')
    (hok : CallsInFirstEpoch s e) (hstep : TimerStep E s e t) :
    ∀ at', t.armedAt = some at' → InFirstEpoch at' := by
  intro at' hat
  cases e with
  | advance cycles =>
      obtain rfl := hstep
      exact hs at' hat
  | timerInit | timerHandler =>
      obtain rfl := hstep
      obtain rfl := Option.some.inj hat
      exact hok
  | store a b =>
      obtain ⟨-, rfl⟩ := hstep
      exact hs at' hat

end Runs

/-- The timer in every run of hart 0 from its reset on.

* A call of `timer_init` or `timer_handler` in any reachable state arms the
  timer one interval ahead of the time of the call exactly when that time is
  in the first epoch.
* In a run whose calls are all in the first epoch, the timer is armed one
  interval ahead of the last call in every state. -/
theorem timer_rearmed_iff (E : TimerEnv) :
    (∀ s, (timerSystem E).Reachable s →
      (Rearmed s.machine.mtime (timerInit E 0#32 s.machine)
        ↔ InFirstEpoch s.machine.mtime) ∧
      (Rearmed s.machine.mtime (timerHandler 0#32 s.machine)
        ↔ InFirstEpoch s.machine.mtime)) ∧
    (∀ s₀ es s, (timerSystem E).init s₀ → (timerSystem E).Run s₀ es s →
      System.Run.Allowed (timerSystem E) CallsInFirstEpoch s₀ es → StaysArmed s) := by
  constructor
  · intro s hs
    have hupper := upperZero_reachable hs
    exact ⟨rearmed_iff (armsLow_timerInit E hupper), rearmed_iff (armsLow_timerHandler hupper)⟩
  · rintro s₀ es s hinit hrun hallowed at' hat
    -- No call is recorded at the start.
    have hstart : ∀ at', s₀.armedAt = some at' → InFirstEpoch at' := by
      intro t ht
      rw [hinit.2] at ht
      cases ht
    have hepoch := System.invariant_of_allowed (M := timerSystem E)
      (I := fun s => ∀ at', s.armedAt = some at' → InFirstEpoch at')
      (fun _ _ _ => lastCall_step) hstart hrun hallowed
    exact (rearmed_iff (staysLow_reachable ⟨s₀, es, hinit, hrun⟩ at' hat)).mpr (hepoch at' hat)

/-- The timer in every run of hart 0 from its reset on, whatever the time. The
interrupt is pending no later than one interval after the last call of `timer_init`
or `timer_handler`. It may be pending before, and from `mtime` `2 ^ 32` on it always
is: no call takes it away any more. -/
theorem timer_never_late (E : TimerEnv) (s : TimerState) (hs : (timerSystem E).Reachable s)
    (t : BitVec 64) (hat : s.armedAt = some t) :
    s.machine.mtimecmp.toNat = (t.toNat + interval.toNat) % 2 ^ 32 ∧
    (∀ now, t.toNat + interval.toNat ≤ now.toNat → s.machine.pendingAt now) ∧
    ∀ now, 2 ^ 32 ≤ now.toNat → s.machine.pendingAt now := by
  have hlow := toNat_mtimecmp (staysLow_reachable hs t hat)
  refine ⟨hlow, fun now hnow => ?_, fun now hnow => ?_⟩
  · rw [Machine.pendingAt, BitVec.le_def, hlow]
    exact Nat.le_trans (Nat.mod_le _ _) hnow
  · have hlt : (t.toNat + interval.toNat) % 2 ^ 32 < 2 ^ 32 := Nat.mod_lt _ (by decide)
    rw [Machine.pendingAt, BitVec.le_def, hlow]
    omega

/-- A kernel image whose scratch area starts at `0x80010000`. -/
def sampleTimerEnv : TimerEnv := ⟨0x80010000#32, by decide, by decide⟩

/-- A reset with `mtime` and all memory zero. -/
def zeroReset : Machine where
  mtime := 0#64
  mem _ := 0#8
  mscratch := 0#32
  mie := 0#32
  timerCount := 0#32

/-- Seven minutes after `timer_init`, when `mtime` is one interval short of
`2 ^ 32`. -/
def beforeRollover : TimerState where
  machine := { timerInit sampleTimerEnv 0#32 zeroReset with mtime := 4274967296#64 }
  armedAt := some 0#64

/-- The state is one that the system reaches. -/
theorem beforeRollover_reachable : (timerSystem sampleTimerEnv).Reachable beforeRollover := by
  have hreset : (timerSystem sampleTimerEnv).Reachable ⟨zeroReset, none⟩ :=
    System.Reachable.of_init ⟨by decide, rfl⟩
  have hinit : (timerSystem sampleTimerEnv).step ⟨zeroReset, none⟩ .timerInit
      ⟨timerInit sampleTimerEnv 0#32 zeroReset, some 0#64⟩ := rfl
  have hlater : (timerSystem sampleTimerEnv).step
      ⟨timerInit sampleTimerEnv 0#32 zeroReset, some 0#64⟩ (.advance 4274967296)
      beforeRollover := rfl
  exact (hreset.step hinit).step hlater

/-- The interrupt for the call at time 0 is there, whatever comes before the next. -/
theorem beforeRollover_never_late :
    beforeRollover.machine.mtimecmp.toNat = 20000000 ∧
    (∀ now : BitVec 64, 20000000 ≤ now.toNat → beforeRollover.machine.pendingAt now) ∧
    ∀ now : BitVec 64, 2 ^ 32 ≤ now.toNat → beforeRollover.machine.pendingAt now :=
  timer_never_late sampleTimerEnv beforeRollover beforeRollover_reachable 0#64 rfl

/-- There `timer_handler` arms the timer for time 0, so the interrupt is
pending at once. -/
theorem rollover_pending :
    (timerSystem sampleTimerEnv).Reachable beforeRollover ∧
    beforeRollover.machine.mtime = 4274967296#64 ∧
    (timerHandler 0#32 beforeRollover.machine).mtimecmp = 0#64 ∧
    (timerHandler 0#32 beforeRollover.machine).pendingAt 4274967296#64 ∧
    ¬ Rearmed 4274967296#64 (timerHandler 0#32 beforeRollover.machine) := by
  have hupper := upperZero_reachable beforeRollover_reachable
  have hnot : ¬ Rearmed beforeRollover.machine.mtime
      (timerHandler 0#32 beforeRollover.machine) := by
    rw [rearmed_iff (armsLow_timerHandler hupper)]
    decide
  have hzero : (timerHandler 0#32 beforeRollover.machine).mtimecmp = 0#64 := by
    apply BitVec.eq_of_toNat_eq
    rw [toNat_mtimecmp (armsLow_timerHandler hupper)]
    decide
  refine ⟨beforeRollover_reachable, rfl, hzero, ?_, hnot⟩
  rw [Machine.pendingAt, hzero]
  decide

end MiniRiscvOs.Proofs
