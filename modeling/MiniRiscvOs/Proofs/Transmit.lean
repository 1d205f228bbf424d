import MiniRiscvOs.Kernel.Transmit

/-!
# `MiniRiscvOs.Proofs.Transmit`: which bytes get to the line

Between the read of `LSR` and the store to `THR` another flow may store, and
the byte it has stored is lost. The main result `transmit_delivers` says what
holds in spite of it, and that nothing else is lost:

* The bytes of each flow that get to the line are bytes it was asked to print,
  in their order.
* A store takes the place of an unsent byte only if another flow has stored
  since the read of `LSR`.
* A flow loses nothing if it stores while no other is between the two
  accesses.

`transmit_task_complete` is the case of a task beside handlers that run to
their end: all of its text gets to the line.

`Transmitted` says once what an event does. The invariants follow from it.
-/

set_option autoImplicit false

namespace MiniRiscvOs.Proofs

open MiniRiscvOs.Lib
open MiniRiscvOs.Kernel.Serial

variable {ι : Type}

/-! ### What an event does -/

/-- The bytes a flow is still to store. -/
def pendingText : PutsPc → List Byte
  | .out => []
  | .test s => cText s
  | .poll ch rest | .store ch rest => ch :: rest.elim [] cText

/-- Behind the store the rest of the text is still to come. -/
theorem pendingText_back (rest : Option (List Byte)) :
    pendingText (.back rest) = rest.elim [] cText := by
  cases rest <;> rfl

/-- Behind the store no read of `LSR` is out of date. -/
theorem between_back (rest : Option (List Byte)) : (PutsPc.back rest).between = false := by
  cases rest <;> rfl

/-- The bytes of flow `u`. -/
def ownBytes [DecidableEq ι] (u : ι) (bytes : List (ι × Byte)) : List Byte :=
  (bytes.filter (·.1 = u)).map Prod.snd

/-- What has been sent and what is still in the UART. -/
def onWay (s : Transmitter ι) : List (ι × Byte) := s.line ++ s.thr.toList

variable [DecidableEq ι]

/-- The effect of an event. -/
inductive Transmitted (s : Transmitter ι) : TransmitEvent ι → Transmitter ι → Prop
  | call (e : TransmitEvent ι) (t : ι) (pc : PutsPc) (he : ∀ u, e ≠ .step u)
      (hout : s.flow t = .out) (hpc : pc.between = false) :
      Transmitted s e ({ s with
        asked := Function.update s.asked t (s.asked t ++ pendingText pc) }.goto t pc)
  | go (t : ι) (pc : PutsPc) (hold : (s.flow t).between = false) (hnew : pc.between = false)
      (htext : pendingText pc = pendingText (s.flow t)) : Transmitted s (.step t) (s.goto t pc)
  | wait (t : ι) (hpoll : (s.flow t).between = false) : Transmitted s (.step t) s
  | enter (t : ι) (ch : Byte) (rest : Option (List Byte)) (hpoll : s.flow t = .poll ch rest)
      (hthr : s.thr = none) :
      Transmitted s (.step t)
        ({ s with hit := Function.update s.hit t false }.goto t (.store ch rest))
  | store (t : ι) (ch : Byte) (rest : Option (List Byte)) (hstore : s.flow t = .store ch rest) :
      Transmitted s (.step t) ((s.store t ch).goto t (.back rest))
  | sent (b : ι × Byte) (hthr : s.thr = some b) :
      Transmitted s .sent { s with thr := none, line := s.line ++ [b] }

/-- The cases of one step. -/
theorem transmitted_of_step {s s' : Transmitter ι} {e : TransmitEvent ι}
    (hstep : transmitStep s e = some s') : Transmitted s e s' := by
  cases e with
  | puts t str =>
      -- A flow calls only when it is not in a call.
      rw [transmitStep] at hstep
      split at hstep
      · rename_i hout
        obtain rfl := Option.some.inj hstep
        exact .call _ t (.test str) (by simp) hout rfl
      · cases hstep
  | putc t ch =>
      rw [transmitStep] at hstep
      split at hstep
      · rename_i hout
        obtain rfl := Option.some.inj hstep
        exact .call _ t (.poll ch none) (by simp) hout rfl
      · cases hstep
  | sent =>
      obtain ⟨b, hthr, rfl⟩ := Option.map_eq_some_iff.mp hstep
      exact .sent b hthr
  | step t =>
      rw [transmitStep, flowStep] at hstep
      -- One case for each access of the flow.
      cases hpc : s.flow t with
      | out =>
          rw [hpc] at hstep
          cases hstep
      | test str =>
          rw [hpc] at hstep
          cases str with
          | nil =>
              obtain rfl := Option.some.inj hstep
              exact .go t .out (by simp [hpc, PutsPc.between]) rfl
                (by simp [hpc, pendingText, cText])
          | cons ch rest =>
              obtain rfl := Option.some.inj hstep
              by_cases hnul : ch = 0#8
              · rw [if_pos hnul]
                exact .go t .out (by simp [hpc, PutsPc.between]) rfl
                  (by simp [hpc, pendingText, cText, hnul])
              · rw [if_neg hnul]
                exact .go t _ (by simp [hpc, PutsPc.between]) rfl
                  (by simp [hpc, pendingText, cText, hnul])
      | poll ch rest =>
          rw [hpc] at hstep
          dsimp only at hstep
          split at hstep
          · obtain rfl := Option.some.inj hstep
            exact .wait t (by simp [hpc, PutsPc.between])
          · rename_i hthr
            obtain rfl := Option.some.inj hstep
            exact .enter t ch rest hpc (by simpa using hthr)
      | store ch rest =>
          rw [hpc] at hstep
          obtain rfl := Option.some.inj hstep
          exact .store t ch rest hpc

/-! ### The text of a flow -/

/-- The bytes of a flow, part by part. -/
theorem ownBytes_append (u : ι) (xs ys : List (ι × Byte)) :
    ownBytes u (xs ++ ys) = ownBytes u xs ++ ownBytes u ys := by
  simp [ownBytes]

/-- A flow's own byte. -/
theorem ownBytes_self (u : ι) (b : Byte) : ownBytes u [(u, b)] = [b] := by
  simp [ownBytes]

/-- The byte of another flow is none of its own. -/
theorem ownBytes_of_ne {u t : ι} (hne : t ≠ u) (b : Byte) : ownBytes u [(t, b)] = [] := by
  simp [ownBytes, hne]

/-- What a flow has stored and is still to store is the text of its calls. -/
def TextOk (s : Transmitter ι) : Prop :=
  ∀ u, s.stored u ++ pendingText (s.flow u) = s.asked u

/-- One step moves no byte but the next one of a text. -/
theorem TextOk.step {s s' : Transmitter ι} {e : TransmitEvent ι} (h : TextOk s)
    (hstep : Transmitted s e s') : TextOk s' := by
  intro u
  have hu := h u
  -- A step of flow `t` changes nothing for the others.
  cases hstep with
  | call _ t pc _ hout _ =>
      by_cases hut : u = t
      · subst hut
        rw [hout] at hu
        simp only [pendingText, List.append_nil] at hu
        simp [Transmitter.goto, hu]
      · simpa [Transmitter.goto, Function.update_of_ne hut] using hu
  | go t pc _ _ htext =>
      by_cases hut : u = t
      · subst hut
        simpa [Transmitter.goto, htext] using hu
      · simpa [Transmitter.goto, Function.update_of_ne hut] using hu
  | wait t _ => exact hu
  | enter t ch rest hpoll _ =>
      by_cases hut : u = t
      · subst hut
        rw [hpoll] at hu
        simpa [Transmitter.goto, pendingText] using hu
      · simpa [Transmitter.goto, Function.update_of_ne hut] using hu
  | store t ch rest hstore =>
      by_cases hut : u = t
      · subst hut
        rw [hstore] at hu
        show Function.update s.stored u _ u ++ pendingText (Function.update s.flow u _ u) = _
        rw [Function.update_self, Function.update_self, pendingText_back, List.append_assoc]
        exact hu
      · simpa [Transmitter.goto, Transmitter.store, Function.update_of_ne hut] using hu
  | sent b _ => exact hu

/-- The bytes of a flow that are sent or in the UART are bytes it has stored,
in their order. -/
def InTextOrder (s : Transmitter ι) : Prop := ∀ u, (ownBytes u (onWay s)).Sublist (s.stored u)

/-- A store keeps the bytes before it. The one in the UART may get lost. -/
theorem ownBytes_line_sublist (u : ι) (s : Transmitter ι) :
    (ownBytes u s.line).Sublist (ownBytes u (onWay s)) := by
  rw [onWay, ownBytes_append]
  exact List.sublist_append_left _ _

/-- One step keeps the order. -/
theorem InTextOrder.step {s s' : Transmitter ι} {e : TransmitEvent ι} (h : InTextOrder s)
    (hstep : Transmitted s e s') : InTextOrder s' := by
  intro u
  have hu := h u
  cases hstep with
  | call _ _ _ _ _ _ | go _ _ _ _ _ | wait _ _ | enter _ _ _ _ _ => exact hu
  | store t ch rest _ =>
      have hline := (ownBytes_line_sublist u s).trans hu
      show (ownBytes u (s.line ++ [(t, ch)])).Sublist (Function.update s.stored t _ u)
      rw [ownBytes_append]
      by_cases hut : u = t
      · subst hut
        rw [ownBytes_self, Function.update_self]
        exact hline.append (List.Sublist.refl _)
      · rw [ownBytes_of_ne (Ne.symm hut), Function.update_of_ne hut, List.append_nil]
        exact hline
  | sent b hthr =>
      show (ownBytes u (s.line ++ [b] ++ [])).Sublist _
      simpa [onWay, hthr] using hu

/-! ### Stores on top of a byte -/

/-- A flow that is between its accesses while the UART has a byte has been
hit, and each hit accounts for one store on top of a byte. -/
structure HitsOk (s : Transmitter ι) : Prop where
  window : ∀ u, (s.flow u).between = true → s.thr ≠ none → s.hit u = true
  count : ∀ u, s.overwrites u + (s.hit u).toNat ≤ s.hits u

/-- Each lost byte costs a hit. -/
theorem HitsOk.step {s s' : Transmitter ι} {e : TransmitEvent ι} (h : HitsOk s)
    (hstep : Transmitted s e s') : HitsOk s' := by
  cases hstep with
  | call _ t pc _ _ hpc | go t pc _ hpc _ =>
      refine ⟨fun u hu hthr => h.window u ?_ hthr, h.count⟩
      by_cases hut : u = t
      · subst hut
        simp [Transmitter.goto, hpc] at hu
      · simpa [Transmitter.goto, Function.update_of_ne hut] using hu
  | wait t _ => exact h
  | enter t ch rest _ hthr =>
      refine ⟨fun u _ hsome => absurd hthr hsome, fun u => ?_⟩
      have hu := h.count u
      by_cases hut : u = t
      · subst hut
        simp only [Transmitter.goto, Function.update_self, Bool.toNat_false]
        omega
      · simpa [Transmitter.goto, Function.update_of_ne hut] using hu
  | store t ch rest hstore =>
      refine ⟨fun u hu _ => ?_, fun u => ?_⟩
      · by_cases hut : u = t
        · subst hut
          simp [Transmitter.goto, between_back] at hu
        · have hbetween : (s.flow u).between = true := by
            simpa [Transmitter.goto, Transmitter.store, Function.update_of_ne hut] using hu
          simp [Transmitter.goto, Transmitter.store, hut, hbetween]
      · have hu := h.count u
        by_cases hut : u = t
        · subst hut
          -- A byte in the UART means that the flow has been hit.
          by_cases hthr : s.thr = none
          · simp [Transmitter.goto, Transmitter.store, hthr]
            omega
          · have hhit := h.window u (by rw [hstore]; rfl) hthr
            have hsome : s.thr.isSome = true := Option.isSome_iff_ne_none.mpr hthr
            rw [hhit] at hu
            simp [Transmitter.goto, Transmitter.store, hsome]
            simpa using hu
        · cases hbetween : (s.flow u).between <;> cases hhit : s.hit u <;> rw [hhit] at hu <;>
            simp [Transmitter.goto, Transmitter.store, hut, hbetween, hhit] at hu ⊢ <;> omega
  | sent b hthr => exact ⟨fun u _ hsome => absurd rfl hsome, h.count⟩

/-! ### A flow that loses nothing -/

/-- The bytes that flow `u` has stored are sent or in the UART. While one of
them is there, no flow is between its accesses. -/
structure Complete (u : ι) (s : Transmitter ι) : Prop where
  own : ownBytes u (onWay s) = s.stored u
  alone : ∀ b, s.thr = some (u, b) → ∀ v, (s.flow v).between = false

/-- A step that does not hit the flow loses none of its bytes. -/
theorem Complete.step {u : ι} {s s' : Transmitter ι} {e : TransmitEvent ι} (h : Complete u s)
    (hkeep : KeepsOut u s e) (hstep : Transmitted s e s') : Complete u s' := by
  have hmove : ∀ (t : ι) (pc : PutsPc), pc.between = false → ∀ b, s.thr = some (u, b) →
      ∀ v, (Function.update s.flow t pc v).between = false := by
    intro t pc hpc b hthr v
    by_cases hvt : v = t
    · rw [hvt, Function.update_self]
      exact hpc
    · rw [Function.update_of_ne hvt]
      exact h.alone b hthr v
  cases hstep with
  | call _ t pc _ _ hpc | go t pc _ hpc _ => exact ⟨h.own, hmove t pc hpc⟩
  | wait t _ => exact h
  | enter t ch rest _ hthr => exact ⟨h.own, fun b hb => absurd (hthr.symm.trans hb) (by simp)⟩
  | store t ch rest hstore =>
      have hbetween : (s.flow t).between = true := by
        rw [hstore]
        rfl
      -- The byte in the UART is not one of `u`.
      have hline : ownBytes u s.line = s.stored u := by
        rw [← h.own, onWay, ownBytes_append]
        cases hthr : s.thr with
        | none => simp [ownBytes]
        | some b =>
            obtain ⟨v, b⟩ := b
            by_cases hvu : v = u
            · subst hvu
              have hfree := h.alone b hthr t
              rw [hbetween] at hfree
              cases hfree
            · simp [ownBytes_of_ne hvu]
      refine ⟨?_, fun b hb v => ?_⟩
      · show ownBytes u (s.line ++ [(t, ch)]) = Function.update s.stored t _ u
        rw [ownBytes_append, hline]
        by_cases hut : u = t
        · subst hut
          rw [ownBytes_self, Function.update_self]
        · rw [ownBytes_of_ne (Ne.symm hut), Function.update_of_ne hut, List.append_nil]
      · obtain rfl : t = u := (Prod.mk.inj (Option.some.inj hb)).1
        by_cases hvt : v = t
        · subst hvt
          simp [Transmitter.goto, between_back]
        · simpa [Transmitter.goto, Transmitter.store, Function.update_of_ne hvt] using
            hkeep rfl hbetween v hvt
  | sent b hthr =>
      refine ⟨?_, fun b hb => absurd hb (by simp)⟩
      have hown := h.own
      simpa [onWay, hthr] using hown

/-! ### Every run -/

section Runs

variable {es : List (TransmitEvent ι)} {s : Transmitter ι}

/-- Along every run what is stored and what is to come make up the texts. -/
theorem textOk_run (hrun : (transmitSystem ι).Run (transmitReset ι) es s) : TextOk s :=
  hrun.preserves (fun _ _ _ h hstep => h.step (transmitted_of_step hstep)) fun _ => rfl

/-- The order holds along every run. -/
theorem inTextOrder_run (hrun : (transmitSystem ι).Run (transmitReset ι) es s) : InTextOrder s :=
  hrun.preserves (fun _ _ _ h hstep => h.step (transmitted_of_step hstep))
    fun _ => List.Sublist.refl _

/-- No more bytes of a flow are lost than it has hits. -/
theorem overwrites_le_hits (hrun : (transmitSystem ι).Run (transmitReset ι) es s) (u : ι) :
    s.overwrites u ≤ s.hits u := by
  have hstart : HitsOk (transmitReset ι) :=
    ⟨fun _ hbetween => absurd hbetween (by simp [transmitReset, PutsPc.between]),
      fun _ => Nat.le_refl _⟩
  have hhits : HitsOk s :=
    hrun.preserves (fun _ _ _ h hstep => h.step (transmitted_of_step hstep)) hstart
  have hcount := hhits.count u
  omega

/-- The run lemma of `Complete.step`. -/
theorem complete_run {u : ι} (hrun : (transmitSystem ι).Run (transmitReset ι) es s)
    (hkeep : System.Run.Allowed (transmitSystem ι) (KeepsOut u) (transmitReset ι) es) :
    ownBytes u (onWay s) = s.stored u := by
  have hstart : Complete u (transmitReset ι) :=
    ⟨rfl, fun b hb => absurd hb (by simp [transmitReset])⟩
  have hcomplete : Complete u s :=
    System.invariant_of_allowed (I := Complete u)
      (fun _ _ _ h hok hstep => h.step hok (transmitted_of_step hstep)) hstart hrun hkeep
  exact hcomplete.own

end Runs

/-- Over every run of flows that print and of the UART: each flow stores the
text of its calls in order. What gets to the line of it is a part of it in
this order. A store takes the place of an unsent byte only where another flow
has stored since the read of `LSR`, and no more than once for each time. A flow
whose stores keep out of the others' way loses nothing. -/
theorem transmit_delivers (es : List (TransmitEvent ι)) (s : Transmitter ι)
    (hrun : (transmitSystem ι).Run (transmitReset ι) es s) :
    (∀ u, s.stored u ++ pendingText (s.flow u) = s.asked u) ∧
    (∀ u, (ownBytes u (onWay s)).Sublist (s.stored u)) ∧
    (∀ u, s.overwrites u ≤ s.hits u) ∧
    ∀ u, System.Run.Allowed (transmitSystem ι) (KeepsOut u) (transmitReset ι) es →
      ownBytes u (onWay s) = s.stored u :=
  ⟨textOk_run hrun, inTextOrder_run hrun, overwrites_le_hits hrun, fun _ => complete_run hrun⟩

/-! ### A task beside handlers -/

/-- A handler goes on to its end: while a flow other than `task` prints, only
it and the UART go on. -/
def HandlersFirst (task : ι) (s : Transmitter ι) (e : TransmitEvent ι) : Prop :=
  ∀ v, v ≠ task → s.flow v ≠ .out → e = .sent ∨ e = .step v

/-- A flow between its accesses is in a call. -/
theorem out_ne_of_between {pc : PutsPc} (h : pc.between = true) : pc ≠ .out := by
  rintro rfl
  cases h

omit [DecidableEq ι] in
/-- Then no handler is between its accesses when the task stores. -/
theorem HandlersFirst.keepsOut {task : ι} {s : Transmitter ι} {e : TransmitEvent ι}
    (h : HandlersFirst task s e) : KeepsOut task s e := by
  cases e with
  | step t =>
      rintro rfl _ v hv
      by_contra hbetween
      have hout := out_ne_of_between (by simpa using hbetween)
      rcases h v hv hout with heq | heq
      · cases heq
      · exact hv (TransmitEvent.step.inj heq).symm
  | puts t str | putc t ch | sent => trivial

/-- Nor does another flow store while a handler is there. -/
theorem HandlersFirst.hits {task : ι} {s s' : Transmitter ι} {e : TransmitEvent ι}
    (h : HandlersFirst task s e) (hstep : Transmitted s e s') {v : ι} (hv : v ≠ task) :
    s'.hits v = s.hits v := by
  cases hstep with
  | store t ch rest _ =>
      show s.hits v + _ = s.hits v
      by_cases hbetween : (s.flow v).between = true
      · rcases h v hv (out_ne_of_between hbetween) with heq | heq
        · cases heq
        · simp [(TransmitEvent.step.inj heq).symm]
      · simp [hbetween]
  | _ => rfl

/-- On one hart, with one task and handlers that run to their end, all of the
task's text gets to the line, and no store of a handler takes the place of a
byte. So what gets lost is the last byte of a handler that came in between the
two accesses of the task. -/
theorem transmit_task_complete (task : ι) (es : List (TransmitEvent ι)) (s : Transmitter ι)
    (hrun : (transmitSystem ι).Run (transmitReset ι) es s)
    (hfirst : System.Run.Allowed (transmitSystem ι) (HandlersFirst task) (transmitReset ι) es) :
    ownBytes task (onWay s) ++ pendingText (s.flow task) = s.asked task ∧
    ∀ v, v ≠ task → s.overwrites v = 0 := by
  refine ⟨?_, fun v hv => ?_⟩
  · rw [complete_run hrun fun pre e post t hes hpre => (hfirst pre e post t hes hpre).keepsOut]
    exact textOk_run hrun task
  · have hzero : s.hits v = 0 :=
      System.invariant_of_allowed (I := fun s => s.hits v = 0)
        (fun _ _ _ hs hok hstep => (hok.hits (transmitted_of_step hstep) hv).trans hs) rfl hrun
        hfirst
    have hle := overwrites_le_hits hrun v
    omega

/-! ### A byte is lost -/

/-- A task is between its two accesses when a handler prints a byte. -/
def lostEvents : List (TransmitEvent Bool) :=
  [.putc true 0x41#8, .step true, .putc false 0x42#8, .step false, .step false, .step true, .sent]

/-- The state after it. -/
def lostByte : Transmitter Bool :=
  (lostEvents.foldlM transmitStep (transmitReset Bool)).getD (transmitReset Bool)

/-- The byte of the handler does not get to the line, and that of the task
does. -/
example : lostByte.line = [(true, 0x41#8)] ∧ lostByte.overwrites true = 1 := by decide

/-- The events that keep out of the way of the other flow. -/
def keptStep (s : Transmitter Bool) (e : TransmitEvent Bool) : Option (Transmitter Bool) :=
  match e with
  | .step true => if (s.flow true).between && (s.flow false).between then none else transmitStep s e
  | e => transmitStep s e

/-- The run of the example. -/
theorem lostByte_run : (transmitSystem Bool).Run (transmitReset Bool) lostEvents lostByte :=
  System.ofStep?_run rfl

/-- What the test says. -/
theorem keptStep_cases {s t : Transmitter Bool} {e : TransmitEvent Bool}
    (h : keptStep s e = some t) : transmitStep s e = some t ∧ KeepsOut true s e := by
  unfold keptStep at h
  split at h
  · split at h
    · cases h
    · rename_i hclear
      refine ⟨h, fun _ hbetween v hv => ?_⟩
      obtain rfl : v = false := by simpa using hv
      simpa [hbetween] using hclear
  · rename_i hne
    refine ⟨h, ?_⟩
    cases e with
    | step t =>
        rintro rfl
        exact absurd rfl hne
    | puts t str | putc t ch | sent => trivial

/-- The events hit the other flow only. -/
theorem lostEvents_kept :
    System.Run.Allowed (transmitSystem Bool) (KeepsOut true) (transmitReset Bool) lostEvents := by
  have hdet : ∀ s e t t', keptStep s e = some t → (transmitSystem Bool).step s e t' → t = t' :=
    fun _ _ _ _ h hstep => Option.some.inj ((keptStep_cases h).1.symm.trans hstep)
  exact System.Run.Allowed.of_foldlM hdet (fun _ _ _ h => (keptStep_cases h).2) (s := lostByte) rfl

/-- The main result there: the task loses nothing. -/
theorem lostByte_delivers : ownBytes true (onWay lostByte) = lostByte.stored true :=
  (transmit_delivers lostEvents lostByte lostByte_run).2.2.2 true lostEvents_kept

/-- The events that let the other flow go on to its end. -/
def firstStep (s : Transmitter Bool) (e : TransmitEvent Bool) : Option (Transmitter Bool) :=
  match e with
  | .sent => transmitStep s .sent
  | .step false => transmitStep s (.step false)
  | e => if s.flow false = .out then transmitStep s e else none

/-- What the test says. -/
theorem firstStep_cases {s t : Transmitter Bool} {e : TransmitEvent Bool}
    (h : firstStep s e = some t) : transmitStep s e = some t ∧ HandlersFirst true s e := by
  unfold firstStep at h
  split at h
  · exact ⟨h, fun _ _ _ => Or.inl rfl⟩
  · refine ⟨h, fun v hv _ => Or.inr ?_⟩
    obtain rfl : v = false := by simpa using hv
    rfl
  · split at h
    · rename_i hout
      refine ⟨h, fun v hv hflow => ?_⟩
      obtain rfl : v = false := by simpa using hv
      exact absurd hout hflow
    · cases h

/-- In the events the handler's flow comes first. -/
theorem lostEvents_first :
    System.Run.Allowed (transmitSystem Bool) (HandlersFirst true) (transmitReset Bool)
      lostEvents := by
  have hdet : ∀ s e t t', firstStep s e = some t → (transmitSystem Bool).step s e t' → t = t' :=
    fun _ _ _ _ h hstep => Option.some.inj ((firstStep_cases h).1.symm.trans hstep)
  exact System.Run.Allowed.of_foldlM hdet (fun _ _ _ h => (firstStep_cases h).2) (s := lostByte) rfl

/-- The handler of this run comes in between the accesses of the task and goes on to
its end. All that the task has printed gets to the line. -/
theorem lostByte_complete :
    ownBytes true (onWay lostByte) ++ pendingText (lostByte.flow true) = [0x41#8] ∧
    ∀ v, v ≠ true → lostByte.overwrites v = 0 :=
  transmit_task_complete true lostEvents lostByte lostByte_run lostEvents_first

end MiniRiscvOs.Proofs
