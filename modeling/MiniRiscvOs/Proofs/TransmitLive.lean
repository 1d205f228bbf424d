import Mathlib.Algebra.Order.BigOperators.Group.Finset
import MiniRiscvOs.Lib.Path
import MiniRiscvOs.Proofs.Transmit

/-!
# `MiniRiscvOs.Proofs.TransmitLive`: printing comes to an end

`Proofs.Transmit` says which bytes get to the line. This module says that the loop of
`lib_putc` is left, on every infinite run on which no flow stops for good in a call
and the UART not with a byte (`transmit_live`).

A flow that finds the transmitter full at each of its reads may wait for ever, but
only where others store bytes for ever. If no new calls are made, all come to an
end.

Between two events of a flow the UART may get empty and full again. So the measure
has both: what the flows have left to do, and the byte in the UART, which counts
less (`lineRank`).
-/

set_option autoImplicit false

namespace MiniRiscvOs.Proofs

open MiniRiscvOs.Lib
open MiniRiscvOs.Kernel.Serial

variable {ι : Type}

/-- Who goes on. -/
inductive LineAgent (ι : Type) where
  | flow (t : ι)
  | uart

/-- What an agent does. -/
def LineAgent.Acts : LineAgent ι → Option (TransmitEvent ι) → Prop
  | .flow t, e => e = some (.step t)
  | .uart, e => e = some .sent

/-- An idle step is nobody's. -/
theorem LineAgent.not_acts_none (a : LineAgent ι) : ¬ a.Acts none := by
  cases a <;> exact fun hacts => by cases hacts

/-- The agent has something to do. -/
def LineAgent.Busy : LineAgent ι → Transmitter ι → Prop
  | .flow t, s => s.flow t ≠ .out
  | .uart, s => s.thr ≠ none

/-- A call of `lib_puts` or of `lib_putc`. -/
def IsPrint : Option (TransmitEvent ι) → Prop
  | some (.puts _ _) | some (.putc _ _) => True
  | _ => False

/-! ### What is left to do -/

/-- The accesses from the return of `lib_putc` on, but for the reads of a full
transmitter. -/
def backLeft : Option (List Byte) → Nat
  | none => 0
  | some s => 3 * (cText s).length + 1

/-- The accesses of a flow up to its return. -/
def accessesLeft : PutsPc → Nat
  | .out => 0
  | .test s => backLeft (some s)
  | .poll _ rest => backLeft rest + 2
  | .store _ rest => backLeft rest + 1

/-- Behind the store the accesses of the rest are left. -/
theorem accessesLeft_back (rest : Option (List Byte)) :
    accessesLeft (.back rest) = backLeft rest := by
  cases rest <;> rfl

/-- The loop of `lib_puts` goes on with the next byte, or ends. -/
theorem accessesLeft_cons (ch : Byte) (s : List Byte) :
    accessesLeft (if ch = 0#8 then .out else .poll ch (some s)) <
      accessesLeft (.test (ch :: s)) := by
  by_cases hnul : ch = 0#8
  · rw [if_pos hnul]
    exact Nat.zero_lt_succ _
  · rw [if_neg hnul]
    simp [accessesLeft, backLeft, cText, hnul]
    omega

variable [DecidableEq ι]

/-- What an access of flow `t` does to the flows and to the UART. -/
inductive Accessed (s : Transmitter ι) (t : ι) : Transmitter ι → Prop
  /-- The transmitter is full. -/
  | wait (hfull : s.thr ≠ none) : Accessed s t s
  | go (s' : Transmitter ι) (hless : accessesLeft (s'.flow t) < accessesLeft (s.flow t))
      (hothers : ∀ u, u ≠ t → s'.flow u = s.flow u)
      (hsame : s'.thr = s.thr ∧ s'.stored = s.stored ∨ s'.stored t ≠ s.stored t) : Accessed s t s'

/-- The cases of one step of a flow. -/
theorem accessed_of_flowStep {s s' : Transmitter ι} {t : ι} (h : flowStep s t = some s') :
    Accessed s t s' := by
  have hothers : ∀ pc u, u ≠ t → Function.update s.flow t pc u = s.flow u :=
    fun pc u hut => Function.update_of_ne hut ..
  rw [flowStep] at h
  -- Each access leaves fewer to make, but for a read of a full transmitter.
  cases hpc : s.flow t with
  | out =>
      rw [hpc] at h
      cases h
  | test str =>
      rw [hpc] at h
      cases str with
      | nil =>
          obtain rfl := Option.some.inj h
          refine .go _ ?_ (hothers _) (Or.inl ⟨rfl, rfl⟩)
          simp [Transmitter.goto, hpc, accessesLeft, backLeft]
      | cons ch rest =>
          obtain rfl := Option.some.inj h
          refine .go _ ?_ (hothers _) (Or.inl ⟨rfl, rfl⟩)
          rw [hpc]
          simpa [Transmitter.goto] using accessesLeft_cons ch rest
  | poll ch rest =>
      rw [hpc] at h
      dsimp only at h
      split at h
      · rename_i hfull
        obtain rfl := Option.some.inj h
        exact .wait (Option.isSome_iff_ne_none.mp hfull)
      · obtain rfl := Option.some.inj h
        refine .go _ ?_ (hothers _) (Or.inl ⟨rfl, rfl⟩)
        simp [Transmitter.goto, hpc, accessesLeft]
  | store ch rest =>
      rw [hpc] at h
      obtain rfl := Option.some.inj h
      refine .go _ ?_ (hothers _) (Or.inr ?_)
      · rw [hpc]
        show accessesLeft (Function.update s.flow t _ t) < backLeft rest + 1
        rw [Function.update_self, accessesLeft_back]
        exact Nat.lt_succ_self _
      · simp [Transmitter.goto, Transmitter.store]

/-! ### One flow -/

/-- The flow stands where it stood, and no other has stored. -/
structure Waits (t : ι) (s₀ s : Transmitter ι) : Prop where
  flow : s.flow t = s₀.flow t
  stored : ∀ u, u ≠ t → s.stored u = s₀.stored u

/-- The agent a flow waits for. -/
def lineHelper (t : ι) (s : Transmitter ι) : LineAgent ι :=
  if s.thr = none then .flow t else .uart

/-- A call is one of a flow that is out, and leaves the UART alone. -/
theorem call_flow {s s' : Transmitter ι} {e : TransmitEvent ι} (hstep : transmitStep s e = some s')
    (hcall : IsPrint (some e)) : ∃ u pc, s.flow u = .out ∧ s'.flow = Function.update s.flow u pc ∧
      s'.thr = s.thr ∧ s'.stored = s.stored := by
  cases e with
  | puts u str =>
      rw [transmitStep] at hstep
      split at hstep
      · rename_i hout
        obtain rfl := Option.some.inj hstep
        exact ⟨u, _, hout, rfl, rfl, rfl⟩
      · cases hstep
  | putc u ch =>
      rw [transmitStep] at hstep
      split at hstep
      · rename_i hout
        obtain rfl := Option.some.inj hstep
        exact ⟨u, _, hout, rfl, rfl, rfl⟩
      · cases hstep
  | step _ | sent => exact hcall.elim

/-- What the flows have left to do, and the byte in the UART. -/
def lineRank (active : Finset ι) (s : Transmitter ι) : Nat :=
  2 * ∑ u ∈ active, accessesLeft (s.flow u) + s.thr.isSome.toNat

/-- An access of one flow takes it down. -/
theorem lineRank_lt {active : Finset ι} {s s' : Transmitter ι} {t : ι}
    (hother : ∀ u, u ∉ active → s.flow u = .out)
    (hless : accessesLeft (s'.flow t) < accessesLeft (s.flow t))
    (hothers : ∀ u, u ≠ t → s'.flow u = s.flow u) :
    lineRank active s' < lineRank active s := by
  have ht : t ∈ active := by
    by_contra hnot
    rw [hother t hnot] at hless
    exact Nat.not_lt_zero _ hless
  have hsum : ∑ u ∈ active, accessesLeft (s'.flow u) < ∑ u ∈ active, accessesLeft (s.flow u) := by
    refine Finset.sum_lt_sum (fun u _ => ?_) ⟨t, ht, hless⟩
    by_cases hut : u = t
    · subst hut
      exact Nat.le_of_lt hless
    · rw [hothers u hut]
  have hbyte : s'.thr.isSome.toNat ≤ 1 := Bool.toNat_le _
  unfold lineRank
  omega

section Paths

/-- No flow stops for good in a call, and the UART not with a byte. -/
def LineKeepsOn (P : (transmitSystem ι).withIdle.Path) : Prop :=
  ∀ a : LineAgent ι, P.Fair (fun _ e => a.Acts e) a.Busy

variable {P : (transmitSystem ι).withIdle.Path}

/-- A flow in a call goes on, or another one stores. -/
theorem waits_leadsTo_not (h₀ : (transmitSystem ι).withIdle.Reachable (P.state 0))
    (hfair : LineKeepsOn P) {t : ι} {s₀ : Transmitter ι} (hout : s₀.flow t ≠ .out) :
    P.LeadsTo (Waits t s₀) fun s => ¬ Waits t s₀ s := by
  refine System.Path.leadsTo_of_measure h₀ (fun s => s.thr.isSome.toNat) (lineHelper t) hfair
    ?_ ?_
  · intro s h _
    by_cases hthr : s.thr = none
    · rw [lineHelper, if_pos hthr]
      exact fun heq => hout (h.flow.symm.trans heq)
    · rw [lineHelper, if_neg hthr]
      exact hthr
  · intro s e s' _ h _ hstep
    by_cases hwaits : Waits t s₀ s'
    · right
      refine ⟨hwaits, ?_⟩
      -- The agent is the same as long as the byte in the UART is.
      have hsame : s'.thr = s.thr → ¬ (lineHelper t s).Acts e →
          s'.thr.isSome.toNat < s.thr.isSome.toNat ∨
            (s'.thr.isSome.toNat = s.thr.isSome.toNat ∧ lineHelper t s' = lineHelper t s ∧
              ¬ (lineHelper t s).Acts e) := by
        intro hthr hacts
        refine Or.inr ⟨by rw [hthr], ?_, hacts⟩
        unfold lineHelper
        rw [hthr]
      cases e with
      | none =>
          obtain rfl := hstep
          exact hsame rfl (LineAgent.not_acts_none _)
      | some e =>
          change transmitStep s e = some s' at hstep
          cases e with
          | step u =>
              cases accessed_of_flowStep hstep with
              | wait hfull =>
                  refine hsame rfl ?_
                  rw [lineHelper, if_neg hfull]
                  exact fun hacts => by cases hacts
              | go _ hless _ hstored =>
                  have hut : u ≠ t := by
                    rintro rfl
                    rw [hwaits.flow, h.flow] at hless
                    exact Nat.lt_irrefl _ hless
                  rcases hstored with ⟨hthr, -⟩ | hstored
                  · refine hsame hthr ?_
                    unfold lineHelper
                    split
                    · exact fun hacts => hut (TransmitEvent.step.inj (Option.some.inj hacts))
                    · exact fun hacts => by cases hacts
                  · exact absurd ((hwaits.stored u hut).trans (h.stored u hut).symm) hstored
          | sent =>
              obtain ⟨b, hthr, rfl⟩ := Option.map_eq_some_iff.mp hstep
              left
              rw [hthr]
              exact Nat.zero_lt_one
          | puts | putc =>
              obtain ⟨-, -, -, -, hthr, -⟩ := call_flow hstep trivial
              refine hsame hthr ?_
              cases lineHelper t s <;> exact fun hacts => by cases hacts
    · exact Or.inl hwaits

/-- Only so many flows are in a call at a time. -/
theorem active_finite {s : Transmitter ι} (hs : (transmitSystem ι).Reachable s) :
    ∃ active : Finset ι, ∀ u, u ∉ active → s.flow u = .out := by
  refine System.invariant
    (I := fun s : Transmitter ι => ∃ active : Finset ι, ∀ u, u ∉ active → s.flow u = .out)
    (fun s hinit => ?_) (fun s e s' ⟨active, hactive⟩ hstep => ?_) hs
  · obtain rfl := hinit
    exact ⟨∅, fun _ _ => rfl⟩
  · have hcall : IsPrint (some e) → ∃ active : Finset ι, ∀ u, u ∉ active → s'.flow u = .out := by
      intro hprint
      obtain ⟨t, pc, -, hflow, -⟩ := call_flow hstep hprint
      refine ⟨insert t active, fun u hu => ?_⟩
      obtain ⟨hut, hu⟩ := not_or.mp (fun h => hu (Finset.mem_insert.mpr h))
      rw [hflow, Function.update_of_ne hut, hactive u hu]
    cases e with
    | step t =>
        refine ⟨active, fun u hu => ?_⟩
        -- A flow that is not in a call makes no access.
        cases accessed_of_flowStep hstep with
        | wait => exact hactive u hu
        | go _ hless hothers =>
            by_cases hut : u = t
            · subst hut
              rw [hactive u hu] at hless
              exact absurd hless (Nat.not_lt_zero _)
            · exact (hothers u hut).trans (hactive u hu)
    | sent =>
        obtain ⟨b, -, rfl⟩ := Option.map_eq_some_iff.mp hstep
        exact ⟨active, hactive⟩
    | puts | putc => exact hcall trivial

open Classical in
/-- The agent that all of them wait for: the UART, or one of the flows. -/
noncomputable def lastHelper (s : Transmitter ι) : LineAgent ι :=
  if h : s.thr = none ∧ ∃ u, s.flow u ≠ .out then .flow h.2.choose else .uart

omit [DecidableEq ι] in
/-- With a byte in the holding register the UART is next. -/
theorem lastHelper_of_full {s : Transmitter ι} (h : s.thr ≠ none) : lastHelper s = .uart :=
  dif_neg fun hnone => h hnone.1

/-- If no new calls are made, all come to an end, and the UART sends the last byte. -/
theorem calls_end (h₀ : (transmitSystem ι).withIdle.Reachable (P.state 0)) (hfair : LineKeepsOn P)
    {n : Nat} (hcalls : ∀ m, n ≤ m → ¬ IsPrint (P.label m)) :
    ∃ m, n ≤ m ∧ (P.state m).thr = none ∧ ∀ u, (P.state m).flow u = .out := by
  -- The flows that are in a call at `n` are all there are from then on.
  obtain ⟨active, hactive⟩ := active_finite (P.reachable h₀ n).of_withIdle
  have hend : (P.rest (fun e => ¬ IsPrint e) n hcalls).LeadsTo
      (fun s => ∀ u, u ∉ active → s.flow u = .out)
      fun s => s.thr = none ∧ ∀ u, s.flow u = .out := by
    refine System.Path.leadsTo_of_measure (.of_init (P.reachable h₀ n)) (lineRank active)
      lastHelper (fun a => (hfair a).rest n hcalls) ?_ ?_
    · -- The agent that all wait for can act.
      intro s _ hgoal
      by_cases hthr : s.thr = none
      · have hleft : ∃ u, s.flow u ≠ .out := by
          by_contra hnone
          exact hgoal ⟨hthr, fun u => not_not.mp fun hu => hnone ⟨u, hu⟩⟩
        rw [lastHelper, dif_pos ⟨hthr, hleft⟩]
        exact hleft.choose_spec
      · rw [lastHelper_of_full hthr]
        exact hthr
    · -- A step of that agent is a step down, and no step is a step up.
      rintro s e s' - hother - ⟨hcall, hstep⟩
      right
      cases e with
      | none =>
          obtain rfl := hstep
          exact ⟨hother, Or.inr ⟨rfl, rfl, LineAgent.not_acts_none _⟩⟩
      | some e =>
          change transmitStep s e = some s' at hstep
          cases e with
          | step t =>
              cases accessed_of_flowStep hstep with
              | wait hfull =>
                  refine ⟨hother, Or.inr ⟨rfl, rfl, ?_⟩⟩
                  rw [lastHelper_of_full hfull]
                  exact fun hacts => by cases hacts
              | go _ hless hothers =>
                  refine ⟨fun u hu => ?_, Or.inl (lineRank_lt hother hless hothers)⟩
                  have hut : u ≠ t := by
                    rintro rfl
                    rw [hother u hu] at hless
                    exact Nat.not_lt_zero _ hless
                  exact (hothers u hut).trans (hother u hu)
          | sent =>
              obtain ⟨b, hthr, rfl⟩ := Option.map_eq_some_iff.mp hstep
              refine ⟨hother, Or.inl ?_⟩
              simp [lineRank, hthr]
          | puts | putc => exact absurd trivial hcall
  obtain ⟨k, -, hgoal⟩ := hend 0 hactive
  exact ⟨n + k, Nat.le_add_right n k, hgoal⟩

/-- Printing on every infinite run on which no flow stops for good in a call and the
UART not with a byte: a flow in a call goes on then or later, or another flow stores
a byte; and if from some time on no new calls are made, then or later all have
returned and have stored their text, and the UART has sent its last byte. -/
theorem transmit_live (P : (transmitSystem ι).withIdle.Path)
    (h₀ : (transmitSystem ι).withIdle.Reachable (P.state 0)) (hfair : LineKeepsOn P) (n : Nat) :
    (∀ t, (P.state n).flow t ≠ .out → ∃ m, n ≤ m ∧
      ((P.state m).flow t ≠ (P.state n).flow t ∨
        ∃ u, u ≠ t ∧ (P.state m).stored u ≠ (P.state n).stored u)) ∧
    ((∀ m, n ≤ m → ¬ IsPrint (P.label m)) → ∃ m, n ≤ m ∧ (P.state m).thr = none ∧
      ∀ u, (P.state m).flow u = .out ∧ (P.state m).stored u = (P.state m).asked u) := by
  refine ⟨fun t hout => ?_, fun hcalls => ?_⟩
  · -- The flow does not wait for ever: it goes on, or another flow stores.
    obtain ⟨m, hnm, hgoal⟩ := waits_leadsTo_not h₀ hfair hout n ⟨rfl, fun _ _ => rfl⟩
    refine ⟨m, hnm, ?_⟩
    by_contra hnone
    obtain ⟨hflow, hstored⟩ := not_or.mp hnone
    exact hgoal ⟨not_not.mp hflow, fun u hut => not_not.mp fun hne => hstored ⟨u, hut, hne⟩⟩
  · obtain ⟨m, hnm, hthr, hout⟩ := calls_end h₀ hfair hcalls
    refine ⟨m, hnm, hthr, fun u => ⟨hout u, ?_⟩⟩
    obtain ⟨s₀, es, hinit, hrun⟩ := (P.reachable h₀ m).of_withIdle
    -- Every flow is out of its call, so what is left of its text is empty.
    obtain rfl := hinit
    have htext := textOk_run hrun u
    rw [hout u] at htext
    exact (List.append_nil _).symm.trans htext

end Paths

/-! ### A task and a handler -/

/-- Two calls, of which the second is a byte. -/
def twoTexts : Transmitter Bool :=
  ([.puts true [0x41#8, 0#8], .putc false 0x42#8].foldlM transmitStep (transmitReset Bool)).getD
    (transmitReset Bool)

/-- Both find the transmitter empty. -/
def twoTextsEvents : List (TransmitEvent Bool) :=
  [.step true, .step true, .step false, .step true, .step false, .sent, .step true]

/-- The state when both texts are out. -/
def twoTextsEnd : Transmitter Bool :=
  (twoTextsEvents.foldlM transmitStep twoTexts).getD twoTexts

/-- The state is one that the system reaches. -/
theorem twoTexts_reachable : (transmitSystem Bool).Reachable twoTexts := by
  have hrun : (transmitSystem Bool).Run (transmitReset Bool)
      [.puts true [0x41#8, 0#8], .putc false 0x42#8] twoTexts := System.ofStep?_run rfl
  exact ⟨transmitReset Bool, _, rfl, hrun⟩

/-- A path: the events, and then idle steps. -/
theorem twoTexts_path : ∃ P : (transmitSystem Bool).withIdle.Path,
    P.state 0 = twoTexts ∧ LineKeepsOn P ∧ ∀ n, ¬ IsPrint (P.label n) := by
  have hrun : (transmitSystem Bool).Run twoTexts twoTextsEvents twoTextsEnd :=
    System.ofStep?_run rfl
  have hout : ∀ t, twoTextsEnd.flow t = .out := by decide
  have hthr : twoTextsEnd.thr = none := by decide
  obtain ⟨P, hP, hfirst, hlast⟩ := System.Path.of_run hrun.withIdle
    (System.Path.stutter (M := (transmitSystem Bool).withIdle) (e := none) rfl) rfl
  refine ⟨P, hP, fun a => ?_, fun n => ?_⟩
  · -- After the events nothing is busy, so the idle steps are fair.
    refine System.Path.fair_of_idle (twoTextsEvents.map some).length fun n => ?_
    rw [(hlast n).1]
    cases a with
    | flow t => exact fun hbusy => hbusy (hout t)
    | uart => exact fun hbusy => hbusy hthr
  · -- None of the seven events is a call, and idle steps are none either.
    by_cases hn : n < (twoTextsEvents.map some).length
    · have hin := hfirst n hn
      simp only [twoTextsEvents, List.map_cons, List.map_nil, List.mem_cons, List.not_mem_nil,
        or_false] at hin
      rcases hin with heq | heq | heq | heq | heq | heq | heq <;> rw [heq] <;> exact id
    · obtain ⟨d, rfl⟩ := Nat.exists_eq_add_of_le (Nat.le_of_not_lt hn)
      rw [(hlast d).2]
      exact id

/-- Both texts are stored, and the line gets idle. -/
theorem twoTexts_live : ∃ P : (transmitSystem Bool).withIdle.Path, P.state 0 = twoTexts ∧
    ∃ m, 0 ≤ m ∧ (P.state m).thr = none ∧
      ∀ u, (P.state m).flow u = .out ∧ (P.state m).stored u = (P.state m).asked u := by
  obtain ⟨P, hP, hfair, hcalls⟩ := twoTexts_path
  exact ⟨P, hP, (transmit_live P (hP ▸ twoTexts_reachable.withIdle) hfair 0).2 fun m _ => hcalls m⟩

end MiniRiscvOs.Proofs
