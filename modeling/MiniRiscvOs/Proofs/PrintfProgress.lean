import MiniRiscvOs.Proofs.PrintfTrap

/-!
# `MiniRiscvOs.Proofs.PrintfProgress`: every `lib_printf` comes to an end

Two results about calls with any format, also one that is no good, and with any
arguments.

* `libVprintf_ends`: a call that nothing interrupts returns or reports its
  overflow. It writes `out_buf` up to the index that it returns and no further,
  and sends no more bytes than it returns. The strings it reads end, for there
  is a zero somewhere in the memory.
* `printf_returns`: the timer cannot keep a call from returning, although its
  handler changes the text under it. The last byte of `out_buf` is never
  written (`InBounds`), so each step of the task leads nearer to the end
  (`ownRank`), and a trap does not lead away from it.
-/

set_option autoImplicit false

namespace MiniRiscvOs.Proofs

open MiniRiscvOs.Lib
open MiniRiscvOs.Kernel

/-! ### A call on its own -/

/-- A string ends at the next zero. -/
theorem cstr_of_nul {m : Mem} {z : Addr} (hz : m z = 0#8) (fuel : Nat) :
    ∀ p : Addr, (z - p).toNat < fuel →
      ∃ bs, cstr m fuel p = some bs ∧ bs.length ≤ (z - p).toNat := by
  induction fuel with
  | zero => exact fun p h => absurd h (Nat.not_lt_zero _)
  | succ fuel ih =>
      intro p h
      by_cases hp : m p = 0#8
      · refine ⟨[], ?_, Nat.zero_le _⟩
        rw [cstr, if_pos hp]
      · have hne : z ≠ p := by
          rintro rfl
          exact hp hz
        have hnext : (z - (p + 1#32)).toNat + 1 = (z - p).toNat := by bv_omega
        obtain ⟨bs, hbs, hlen⟩ := ih (p + 1#32) (by omega)
        refine ⟨m p :: bs, ?_, ?_⟩
        · rw [cstr, if_neg hp, hbs]
          rfl
        · rw [List.length_cons]
          omega

section Ends

variable {vl : Nat → Word} {m : Mem}

variable (vl) in

/-- With a NUL somewhere in memory each character ends. -/
theorem fmtStep_ends (hz : ∃ z, m z = 0#8) (n : Word) (st : Fmt) (ch : Byte) :
    ∃ st', fmtStep vl m n st ch = some st' := by
  obtain ⟨z, hz⟩ := hz
  unfold fmtStep
  by_cases hs : st.format = true ∧ ch = asc 's'
  · obtain ⟨hformat, rfl⟩ := hs
    obtain ⟨bs, hbs, -⟩ := cstr_of_nul hz (2 ^ 32) (vl st.next) (z - vl st.next).isLt
    have hcase : caseS vl m n st = some _ := congrArg (Option.map _) hbs
    rw [if_pos hformat, if_neg (by decide), if_neg (by decide), if_neg (by decide),
      if_neg (by decide), if_pos rfl, hcase]
    exact ⟨_, rfl⟩
  · by_cases hformat : st.format = true
    · have hch : ch ≠ asc 's' := fun h => hs ⟨hformat, h⟩
      rw [if_pos hformat, if_neg hch]
      repeat' split
      all_goals exact ⟨_, rfl⟩
    · rw [if_neg hformat]
      split <;> exact ⟨_, rfl⟩

variable (vl) in
/-- `lib_vsnprintf` comes to an end. Induction on the format. -/
theorem libVsnprintf_ends (hz : ∃ z, m z = 0#8) (n : Word) (out : Option (Nat → Byte))
    (s : List Byte) : ∃ st, libVsnprintf vl m n out s = some st := by
  have hloop : ∀ st, ∃ st', fmtLoop vl m n s st = some st' := by
    induction s with
    | nil => exact fun st => ⟨st, rfl⟩
    | cons ch s ih =>
        intro st
        obtain ⟨st₁, hstep⟩ := fmtStep_ends vl hz n st ch
        obtain ⟨st', hrest⟩ := ih st₁
        refine ⟨st', ?_⟩
        rw [fmtLoop, List.foldlM_cons, hstep]
        exact hrest
  obtain ⟨st', hst'⟩ := hloop ⟨false, false, ⟨0#32, out⟩, 0⟩
  exact ⟨_, congrArg (Option.map _) hst'⟩

/-- Stores below `n` leave alone what is not. -/
theorem applyStores_beyond {n k : Nat} (hk : n ≤ k) (l : List (Nat × Byte)) :
    ∀ o : Nat → Byte, (∀ e ∈ l, e.1 < n) → applyStores o l k = o k := by
  induction l with
  | nil => exact fun _ _ => rfl
  | cons e l ih =>
      intro o hl
      have hne : k ≠ e.1 := by
        have := hl e List.mem_cons_self
        omega
      have hrest := ih (Function.update o e.1 e.2) fun f hf => hl f (List.mem_cons_of_mem e hf)
      exact hrest.trans (Function.update_of_ne hne ..)

/-- `lib_vsnprintf` writes below the size of its buffer only. -/
theorem libVsnprintf_within {n : Word} {o : Nat → Byte} {s : List Byte} {st : Fmt}
    (h : libVsnprintf vl m n (some o) s = some st) :
    ∃ o', st.sink.out = some o' ∧ ∀ k, n.toNat ≤ k → o' k = o k :=
  ⟨_, libVsnprintf_stores n vl m h,
    fun _ hk => applyStores_beyond hk _ o (passStores_lt n vl m s _)⟩

/-- It leaves a NUL there, behind the text or in the last place. -/
theorem libVsnprintf_nul {n : Word} {o o' : Nat → Byte} {s : List Byte} {st : Fmt}
    (hn : n ≠ 0#32) (h : libVsnprintf vl m n (some o) s = some st) (hout : st.sink.out = some o') :
    ∃ k < n.toNat, o' k = 0#8 := by
  obtain ⟨st', -, rfl⟩ := Option.map_eq_some_iff.mp h
  obtain ⟨b, -, hclose⟩ := Option.map_eq_some_iff.mp hout
  by_cases hlt : st'.sink.pos < n
  · rw [if_pos hlt] at hclose
    refine ⟨st'.sink.pos.toNat, hlt, ?_⟩
    rw [← hclose]
    exact Function.update_self ..
  · rw [if_neg hlt, if_pos hn] at hclose
    refine ⟨(n - 1#32).toNat, by bv_omega, ?_⟩
    rw [← hclose]
    exact Function.update_self ..

/-- `lib_puts` reads no further than the first NUL. -/
theorem putsOutBuf_ends {o : Nat → Byte} {k : Nat} (hk : k < 2 ^ 32) (hnul : o k = 0#8) :
    ∃ text, putsOutBuf o = some text ∧ text.length ≤ k := by
  have hnat : (BitVec.ofNat 32 k).toNat = k := Nat.mod_eq_of_lt hk
  obtain ⟨m, hm⟩ : ∃ m : Mem, m = fun a => o a.toNat := ⟨_, rfl⟩
  have hat : m (BitVec.ofNat 32 k) = 0#8 := by
    rw [hm]
    show o (BitVec.ofNat 32 k).toNat = 0#8
    rw [hnat]
    exact hnul
  obtain ⟨text, htext, hlen⟩ := cstr_of_nul hat (2 ^ 32) 0#32 (BitVec.isLt _)
  rw [hm] at htext
  refine ⟨text, htext, ?_⟩
  rwa [BitVec.sub_zero, hnat] at hlen

end Ends

/-- Whatever the format and the arguments: `lib_vprintf` reports that its text is
too long, or it returns, sends no more bytes than it returns and less than
`out_buf` has, and leaves `out_buf` behind its text as it was. The last byte of
`out_buf` is zero before, and stays so. -/
theorem libVprintf_ends (vl : Nat → Word) (m : Mem) (outBuf : Nat → Byte) (s : List Byte)
    (hz : ∃ z, m z = 0#8) (hlast : outBuf 999 = 0#8) :
    ∃ p, libVprintf vl m outBuf s = some p ∧
      (p = ⟨overflowText, none⟩ ∨
        ∃ res o, p.res = some res ∧ p.emitted.length ≤ res.toNat ∧
          p.emitted.length < outBufSize ∧ vprintfOutBuf vl m outBuf s = some o ∧
          (res + 1#32).toNat < outBufSize ∧ ∀ k, (res + 1#32).toNat ≤ k → o k = outBuf k) := by
  obtain ⟨st, hcount⟩ := libVsnprintf_ends vl hz (-1#32) none s
  by_cases hbig : outBufSize ≤ (st.sink.pos + 1#32).toNat
  · refine ⟨⟨overflowText, none⟩, ?_, Or.inl rfl⟩
    simp only [libVprintf, hcount, Option.bind_eq_bind, Option.bind_some, if_pos hbig]
    rfl
  · have hsize : (st.sink.pos + 1#32).toNat < 1000 := Nat.lt_of_not_le hbig
    obtain ⟨st', hwrite⟩ := libVsnprintf_ends vl hz (st.sink.pos + 1#32) (some outBuf) s
    obtain ⟨o, hout, hkept⟩ := libVsnprintf_within hwrite
    -- The NUL of the text, or the last byte of the buffer if the length is `2 ^ 32 - 1`.
    have hnul : ∃ k ≤ st.sink.pos.toNat, k < 1000 ∧ o k = 0#8 := by
      by_cases hzero : st.sink.pos + 1#32 = 0#32
      · refine ⟨999, by bv_omega, by decide, ?_⟩
        rw [hkept 999 (by rw [hzero]; exact Nat.zero_le _)]
        exact hlast
      · obtain ⟨k, hk, hok⟩ := libVsnprintf_nul hzero hwrite hout
        exact ⟨k, by bv_omega, by omega, hok⟩
    obtain ⟨k, hle, hk, hok⟩ := hnul
    obtain ⟨text, htext, hlen⟩ := putsOutBuf_ends (o := o) (by omega) hok
    refine ⟨⟨text, some st.sink.pos⟩, ?_, Or.inr ⟨st.sink.pos, o, rfl, by
      show text.length ≤ _
      omega, ?_, ?_, hsize, hkept⟩⟩
    · simp only [libVprintf, hcount, Option.bind_eq_bind, Option.bind_some, if_neg hbig, hwrite,
        hout, Option.getD_some, htext]
      rfl
    · show text.length < 1000
      omega
    · simp only [vprintfOutBuf, hcount, Option.bind_eq_bind, Option.bind_some, if_neg hbig, hwrite,
        hout, Option.getD_some]
      rfl

/-! ### A call that the timer interrupts -/

/-- The task is in the call `c`, past the counting pass. -/
def Printing (c : PrintCall) (s : PrintState) : Prop :=
  match s.pc with
  | .writing c' _ | .testing c' _ | .sending c' _ => c' = c
  | .idle | .counting _ | .looping _ => False

/-- A bound for the steps that the task still makes in its call. -/
def ownRank (s : PrintState) : Nat :=
  match s.pc with
  | .writing _ rest => rest.length + 2000
  | .testing _ i => 2 * (999 - i) + 1
  | .sending _ i => 2 * (999 - i)
  | .idle | .counting _ | .looping _ => 0

/-- The call `c` has returned, as one more. -/
def Returns (c : PrintCall) (log : List (PrintCall × List Byte)) (s : PrintState) : Prop :=
  s.pc = .idle ∧ ∃ text, s.log = log ++ [(c, text)]

/-- In a call there is a step to make. -/
theorem ownRank_pos {c : PrintCall} {s : PrintState} (hin : InBounds s) (h : Printing c s) :
    0 < ownRank s := by
  obtain ⟨outBuf, count, pc, sent, log⟩ := s
  obtain ⟨-, hpc⟩ := hin
  cases pc with
  | idle | counting _ | looping _ => exact h.elim
  | writing c' rest => exact Nat.succ_pos _
  | testing c' i => exact Nat.succ_pos _
  | sending c' i =>
      have hi : i < 999 := hpc
      show 0 < 2 * (999 - i)
      omega

/-- A step of the task leads nearer to the end of its call. -/
theorem own_nearer {c : PrintCall} {s t : PrintState} (hin : InBounds s) (h : Printing c s)
    (hstep : ownStep s = some t) :
    Returns c s.log t ∨ (Printing c t ∧ t.log = s.log ∧ ownRank t < ownRank s) := by
  obtain ⟨outBuf, count, pc, sent, log⟩ := s
  obtain ⟨hlast, hpc⟩ := hin
  cases pc with
  | idle | counting _ | looping _ => exact h.elim
  | writing c' rest =>
      obtain rfl : c' = c := h
      cases rest with
      -- `lib_puts` reads each of at most 999 bytes twice, and the NUL once.
      | nil =>
          cases hstep
          refine Or.inr ⟨rfl, rfl, ?_⟩
          show 2 * (999 - 0) + 1 < 0 + 2000
          decide
      | cons e rest =>
          cases hstep
          exact Or.inr ⟨rfl, rfl, Nat.lt_succ_self _⟩
  | testing c' i =>
      obtain rfl : c' = c := h
      simp only [ownStep] at hstep
      split at hstep
      · cases hstep
        exact Or.inl ⟨rfl, sent, rfl⟩
      · cases hstep
        exact Or.inr ⟨rfl, rfl, Nat.lt_succ_self _⟩
  | sending c' i =>
      obtain rfl : c' = c := h
      cases hstep
      -- In bounds the NUL is still ahead, so `i` can grow.
      have hi : i < 999 := hpc
      refine Or.inr ⟨rfl, rfl, ?_⟩
      show 2 * (999 - (i + 1)) + 1 < 2 * (999 - i)
      omega

/-- The event is a step of the task. -/
def isOwn : PrintEvent → Bool
  | .own => true
  | .call _ | .trap => false

/-- The steps of the task in a run. -/
def ownSteps (es : List PrintEvent) : Nat := es.countP isOwn

/-- One event more. -/
theorem ownSteps_snoc (es : List PrintEvent) (e : PrintEvent) :
    ownSteps (es ++ [e]) = ownSteps es + if isOwn e then 1 else 0 := by
  rw [ownSteps, List.countP_append, List.countP_singleton]
  rfl

/-- One event in a call: a trap changes the buffer, and nothing of where the task
is. -/
theorem printing_step {c : PrintCall} {s t : PrintState} {e : PrintEvent} (hin : InBounds s)
    (h : Printing c s) (hstep : printStep s e = some t) :
    Returns c s.log t ∨ (Printing c t ∧ t.log = s.log ∧
      ownRank t + (if isOwn e then 1 else 0) ≤ ownRank s) := by
  cases e with
  | call c' =>
      obtain ⟨outBuf, count, pc, sent, log⟩ := s
      cases pc with
      | idle => exact h.elim
      | _ => cases hstep
  | own =>
      rcases own_nearer hin h hstep with hret | ⟨hc, hlog, hlt⟩
      · exact Or.inl hret
      · exact Or.inr ⟨hc, hlog, hlt⟩
  | trap =>
      obtain ⟨o, rfl, -⟩ := timerTrap_cases hstep
      exact Or.inr ⟨h, rfl, Nat.le_refl _⟩

/-- In its call the task can always make a step. -/
theorem printing_goes_on {c : PrintCall} {s : PrintState} (h : Printing c s) :
    ∃ t, printStep s .own = some t := by
  obtain ⟨outBuf, count, pc, sent, log⟩ := s
  cases pc with
  | idle | counting _ | looping _ => exact h.elim
  | writing c' rest =>
      cases rest with
      | nil => exact ⟨_, rfl⟩
      | cons e rest => exact ⟨_, rfl⟩
  | testing c' i =>
      simp only [printStep, ownStep]
      split <;> exact ⟨_, rfl⟩
  | sending c' i => exact ⟨_, rfl⟩

/-- However often the timer interrupts a call of `lib_printf` past its counting
pass, whatever the call prints and whatever the traps do to its text: either it
has returned on the way, or the task has made less than `ownRank` steps and can
make another one. -/
theorem printf_returns {s t : PrintState} {es : List PrintEvent} {c : PrintCall}
    (hreach : printSystem.Reachable s) (hc : Printing c s) (hrun : printSystem.Run s es t) :
    (∃ pre post u, es = pre ++ post ∧ printSystem.Run s pre u ∧ Returns c s.log u) ∨
      (ownSteps es < ownRank s ∧ ∃ u, printStep t .own = some u) := by
  -- The bounds on the positions hold in every reachable state.
  have hbounds : ∀ u, printSystem.Reachable u → InBounds u := fun u hu =>
    System.invariant (fun v hv => hv ▸ ⟨rfl, trivial⟩) (fun _ _ _ => inBounds_step) hu
  -- By induction on the run: the rank has fallen by the task's own steps.
  have hinv : (∃ pre post u, es = pre ++ post ∧ printSystem.Run s pre u ∧ Returns c s.log u) ∨
      (Printing c t ∧ t.log = s.log ∧ ownRank t + ownSteps es ≤ ownRank s) := by
    induction hrun with
    | nil => exact Or.inr ⟨hc, rfl, Nat.le_refl _⟩
    | @snoc u v es e hrun hstep ih =>
        rcases ih with ⟨pre, post, w, rfl, hpre, hret⟩ | ⟨hu, hlog, hrank⟩
        · exact Or.inl ⟨pre, post ++ [e], w, List.append_assoc .., hpre, hret⟩
        · rcases printing_step (hbounds u (hreach.run hrun)) hu hstep with hret | ⟨hv, hlog', hle⟩
          · rw [hlog] at hret
            exact Or.inl ⟨es ++ [e], [], v, (List.append_nil _).symm, hrun.snoc hstep, hret⟩
          · refine Or.inr ⟨hv, hlog'.trans hlog, ?_⟩
            rw [ownSteps_snoc]
            omega
  rcases hinv with hret | ⟨ht, -, hrank⟩
  · exact Or.inl hret
  · -- A call that has not returned still has a rank to spend.
    have hpos := ownRank_pos (hbounds t (hreach.run hrun)) ht
    exact Or.inr ⟨by omega, printing_goes_on ht⟩

/-! ### Samples -/

/-- `lib_printf("hello")` on its own. -/
theorem hello_ends :
    ∃ p, libVprintf hello.vl hello.mem (fun _ => 0#8) hello.format = some p ∧
      (p = ⟨overflowText, none⟩ ∨
        ∃ res o, p.res = some res ∧ p.emitted.length ≤ res.toNat ∧
          p.emitted.length < outBufSize ∧
          vprintfOutBuf hello.vl hello.mem (fun _ => 0#8) hello.format = some o ∧
          (res + 1#32).toNat < outBufSize ∧ ∀ k, (res + 1#32).toNat ≤ k → o k = 0#8) :=
  libVprintf_ends hello.vl hello.mem (fun _ => 0#8) hello.format ⟨0#32, rfl⟩ rfl

/-- `hello` with a trap between its writing pass and `lib_puts`. -/
theorem hello_returns : ∃ s t c, Printing c s ∧
    printSystem.Run s (.trap :: List.replicate 35 .own) t ∧
    ((∃ pre post u, PrintEvent.trap :: List.replicate 35 .own = pre ++ post ∧
        printSystem.Run s pre u ∧ Returns c s.log u) ∨
      (ownSteps (.trap :: List.replicate 35 .own) < ownRank s ∧
        ∃ u, printStep t .own = some u)) := by
  -- The call and its first eight steps lead to the first test of `lib_puts`.
  have hat : ((PrintEvent.call hello :: List.replicate 8 .own).foldlM printStep printInit).map
      (fun s => match s.pc with | .testing _ i => some i | _ => none) = some (some 0) := by decide
  obtain ⟨s, hs, hpc⟩ := Option.map_eq_some_iff.mp hat
  have hend : (helloLate.foldlM printStep printInit).isSome = true := by decide
  obtain ⟨t, ht⟩ := Option.isSome_iff_exists.mp hend
  have hrest : (PrintEvent.trap :: List.replicate 35 .own).foldlM printStep s = some t := by
    have hsplit : helloLate = (.call hello :: List.replicate 8 .own) ++
      -- The rest of `helloLate` is the run in question.
      (.trap :: List.replicate 35 .own) := rfl
    rw [hsplit, List.foldlM_append, hs] at ht
    exact ht
  have hreach : printSystem.Reachable s := ⟨printInit, _, rfl, System.ofStep?_run hs⟩
  obtain ⟨outBuf, count, pc, sent, log⟩ := s
  cases pc with
  | testing c i =>
      have hc : Printing c ⟨outBuf, count, .testing c i, sent, log⟩ := rfl
      have hrun : printSystem.Run ⟨outBuf, count, .testing c i, sent, log⟩
          (.trap :: List.replicate 35 .own) t := System.ofStep?_run hrest
      exact ⟨_, t, c, hc, hrun, printf_returns hreach hc hrun⟩
  | _ => cases hpc

end MiniRiscvOs.Proofs
