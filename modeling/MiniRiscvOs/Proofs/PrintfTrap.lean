import MiniRiscvOs.Proofs.PrintfStores

/-!
# `MiniRiscvOs.Proofs.PrintfTrap`: a `lib_printf` that the timer interrupts

The rendering of a call is what `lib_vsnprintf` writes when all of it has
room. Of the bytes of `out_buf` the task needs those that it has stored and
has yet to read, `Live`. The handler stores its own text from index 0 on.

* `sound_step` is the invariant: each live byte is that of the rendering,
  and what was sent is a prefix of it. A trap keeps this when it stores no
  other byte on a live index, `Harmless`.
* `Spoiled` is the opposite: a live byte is wrong, or something wrong was
  sent. Nothing but another trap repairs it.
* `InBounds` holds whatever happens: the last byte of `out_buf` is never
  stored to, and `lib_puts` stops there at the latest.
-/

set_option autoImplicit false

namespace MiniRiscvOs.Proofs

open MiniRiscvOs.Lib
open MiniRiscvOs.Kernel

/-! ### The handler -/

/-- The text of `timer_handler` before its number. -/
def handlerHead : List Byte := "timer_handler: ".toList.map asc

/-- The text of `timer_handler`. -/
def handlerText (count : Word) : List Byte := handlerHead ++ renderDec count ++ [asc '\n']

/-- What it stores, from index 0 on. -/
def handlerBytes (count : Word) : List Byte := handlerText count ++ [0#8]

/-- A bound for the line that the timer's handler prints. -/
theorem length_handlerText_le (count : Word) : (handlerText count).length ≤ 50 := by
  have hdec := length_renderDec_le count
  have hhead : handlerHead.length = 15 := by decide
  rw [handlerText, List.length_append, List.length_append, hhead, List.length_singleton]
  omega

/-- The call of `timer_handler`. -/
def timerCall (count : Word) : PlainCall where
  vl := fun _ => count
  mem := fun _ => 0#8
  format := ⟨timerFormat, by decide⟩
  plain := by decide
  said := ⟨false, false, [.d], handlerText count⟩
  matched := rfl
  short := by
    have hlen := length_handlerText_le count
    show (handlerText count).length < 2 ^ 31
    omega

/-- What a plain call that nothing interrupts leaves in `out_buf`. -/
theorem PlainCall.vprintfOutBuf_eq (c : PlainCall) (hlen : c.said.text.length + 1 < outBufSize)
    (outBuf : Nat → Byte) :
    ∃ o, vprintfOutBuf c.vl c.mem outBuf c.format.bytes = some o ∧
      Truncated c.said.text (c.said.text.length + 1) outBuf o := by
  have hlen' : c.said.text.length + 1 < 1000 := hlen
  obtain ⟨n, hn⟩ : ∃ n : Word, n = BitVec.ofNat 32 (c.said.text.length + 1) := ⟨_, rfl⟩
  have hsize : n.toNat = c.said.text.length + 1 := by
    rw [hn, BitVec.toNat_ofNat]
    exact Nat.mod_eq_of_lt (by omega)
  -- The counting pass finds the size, and the second pass writes with it.
  have hcount : libVsnprintf c.vl c.mem (-1#32) none c.format.bytes = some _ :=
    congrArg (Option.map _) (c.loop_eq (-1#32) none)
  have hpos : ((start none).emit (-1#32) c.said.text).pos + 1#32 = n := by
    rw [start_emit_pos, hn, BitVec.ofNat_add]
  have hwrite : libVsnprintf c.vl c.mem n (some outBuf) c.format.bytes = some _ :=
    congrArg (Option.map _) (c.loop_eq n (some outBuf))
  obtain ⟨o, hout, htrunc⟩ := truncated_close c.said.text n outBuf (by omega)
  rw [hsize] at htrunc
  have hsmall : ¬ outBufSize ≤ n.toNat := by omega
  refine ⟨o, ?_, htrunc⟩
  simp only [vprintfOutBuf, hcount, Option.bind_eq_bind, Option.bind_some]
  show (if outBufSize ≤ (((start none).emit (-1#32) c.said.text).pos + 1#32).toNat then _
    else (libVsnprintf c.vl c.mem (((start none).emit (-1#32) c.said.text).pos + 1#32)
      (some outBuf) c.format.bytes).bind _) = _
  rw [hpos, if_neg hsmall, hwrite, Option.bind_some]
  show some ((((start (some outBuf)).emit n c.said.text).close n 0#8).out.getD outBuf) = some o
  rw [hout]
  rfl

/-- A buffer after a text that had room, index by index. -/
theorem Truncated.getD {text : List Byte} {out o : Nat → Byte}
    (h : Truncated text (text.length + 1) out o) (i : Nat) :
    o i = ((text ++ [0#8])[i]?).getD (out i) := by
  have hmin : min text.length (text.length + 1 - 1) = text.length := by omega
  rcases Nat.lt_trichotomy i text.length with hlt | rfl | hgt
  · rw [List.getElem?_append_left hlt, h.within i (by omega)]
    rfl
  · have hend := h.ended (Nat.succ_pos _)
    rw [hmin] at hend
    rw [List.getElem?_append_right (Nat.le_refl _), Nat.sub_self, hend]
    rfl
  · have hnone : (text ++ [0#8])[i]? = none := by
      rw [List.getElem?_eq_none_iff, List.length_append]
      exact hgt
    rw [h.beyond i hgt, hnone]
    rfl

/-- The trap stores the text of the handler and its NUL. -/
theorem timerTrap_cases {s t : PrintState} (h : timerTrap s = some t) :
    ∃ o, t = { s with outBuf := o, timerCount := s.timerCount + 1#32 } ∧
      ∀ i, o i = ((handlerBytes (s.timerCount + 1#32))[i]?).getD (s.outBuf i) := by
  have hlen := length_handlerText_le (s.timerCount + 1#32)
  have hfit : (handlerText (s.timerCount + 1#32)).length + 1 < outBufSize :=
    Nat.lt_of_le_of_lt (Nat.succ_le_succ hlen) (by decide)
  obtain ⟨o, ho, htrunc⟩ :=
    (timerCall (s.timerCount + 1#32)).vprintfOutBuf_eq hfit s.outBuf
  exact ⟨o, Option.some.inj (h.symm.trans (congrArg (Option.map _) ho)), htrunc.getD⟩

/-- A call starts with the counting pass. -/
theorem printStep_call {s t : PrintState} {c : PrintCall} (h : printStep s (.call c) = some t) :
    t = { s with pc := .counting c, sent := [] } := by
  simp only [printStep] at h
  split at h
  · exact (Option.some.inj h).symm
  · cases h

/-! ### What a call sends -/

/-- The rendering of a call. -/
def renderingOf (c : PrintCall) : Option (List Byte) :=
  passText c.vl c.mem (-1#32) c.format ⟨false, false, start (some fun _ => 0#8), 0⟩

/-- What the counting pass goes over. It takes no argument for a `%c`. -/
def countedOf (c : PrintCall) : Option (List Byte) :=
  passText c.vl c.mem (-1#32) c.format ⟨false, false, start none, 0⟩

/-- The rendering of the call is `text`, and it has no NUL. -/
structure Renders (c : PrintCall) (text : List Byte) : Prop where
  rendered : renderingOf c = some text
  ne_nul : ∀ b ∈ text, b ≠ 0#8

/-- The counting pass of the call finds room for the rendering. -/
def FitsOutBuf (c : PrintCall) : Prop :=
  ∃ text counted, Renders c text ∧ countedOf c = some counted ∧
    text.length ≤ counted.length % 2 ^ 32 ∧ counted.length % 2 ^ 32 + 1 < outBufSize

/-- The counting pass returns the number of characters it goes over. -/
theorem counting_eq {c : PrintCall} {counted : List Byte} (h : countedOf c = some counted) :
    ∃ st, libVsnprintf c.vl c.mem (-1#32) none c.format = some st ∧
      st.sink.pos = BitVec.ofNat 32 counted.length := by
  obtain ⟨st, hloop, hsink⟩ := fmtLoop_of_passText c.vl c.mem c.format _ _ h
  refine ⟨_, congrArg (Option.map _) hloop, ?_⟩
  show st.sink.pos = _
  rw [hsink]
  exact start_emit_pos (-1#32) none counted

/-- A pass into a buffer with room for the rendering and its NUL. -/
theorem writing_eq {c : PrintCall} {text : List Byte} (h : renderingOf c = some text) {n : Word}
    (hroom : text.length < n.toNat) (outBuf : Nat → Byte) :
    (∃ st, libVsnprintf c.vl c.mem n (some outBuf) c.format = some st) ∧
      ∀ e, e ∈ passStores c.vl c.mem n c.format ⟨false, false, ⟨0#32, some outBuf⟩, 0⟩ ↔
        Laid 0 (text ++ [0#8]) e := by
  have hmax : (-1#32 : Word).toNat = 2 ^ 32 - 1 := by decide
  have hn := n.isLt
  have htext : passText c.vl c.mem n c.format ⟨false, false, ⟨0#32, some outBuf⟩, 0⟩
      = some text := by
    -- The rendering was taken with another buffer; the text does not depend on it.
    have hsame : SameMode ⟨false, false, start (some fun _ => 0#8), 0⟩
        ⟨false, false, ⟨0#32, some outBuf⟩, 0⟩ := ⟨rfl, rfl, rfl, rfl, rfl, rfl⟩
    refine passText_room c.vl c.mem c.format _ _ text hsame h ?_ ?_
    · show 0 + text.length ≤ _
      omega
    · show 0 + text.length ≤ _
      omega
  obtain ⟨st, hloop, -⟩ := fmtLoop_of_passText c.vl c.mem c.format _ _ htext
  refine ⟨⟨_, congrArg (Option.map _) hloop⟩, fun e => ?_⟩
  refine mem_passStores c.vl c.mem c.format e _ text htext ?_
  show 0 + text.length < _
  omega

/-- The first step of a call that fits. -/
theorem ownStep_counting {s : PrintState} {c : PrintCall} (hpc : s.pc = .counting c)
    (hfits : FitsOutBuf c) :
    ∃ text stores, Renders c text ∧ (∀ e, e ∈ stores ↔ Laid 0 (text ++ [0#8]) e) ∧
      ownStep s = some { s with pc := .writing c stores } := by
  obtain ⟨text, counted, hrenders, hcounted, hle, hlt⟩ := hfits
  have hlt' : counted.length % 2 ^ 32 + 1 < 1000 := hlt
  obtain ⟨st, hcount, hpos⟩ := counting_eq hcounted
  -- The size of the second pass.
  have hsize : (st.sink.pos + 1#32).toNat = counted.length % 2 ^ 32 + 1 := by
    have hposNat : st.sink.pos.toNat = counted.length % 2 ^ 32 := by
      rw [hpos, BitVec.toNat_ofNat]
    have hone : (st.sink.pos + 1#32).toNat = st.sink.pos.toNat + 1 :=
      toNat_add_ofNat (by omega)
    rwa [hposNat] at hone
  have hroom : text.length < (st.sink.pos + 1#32).toNat := by omega
  obtain ⟨⟨st', hwrite⟩, hstores⟩ := writing_eq hrenders.rendered hroom s.outBuf
  refine ⟨text, _, hrenders, hstores, ?_⟩
  have hsmall : ¬ outBufSize ≤ (st.sink.pos + 1#32).toNat := by
    show ¬ 1000 ≤ (st.sink.pos + 1#32).toNat
    omega
  rw [ownStep, hpc]
  simp only [hcount, if_neg hsmall, hwrite]

/-! ### `lib_puts` and the end of `out_buf` -/

/-- The last byte of `out_buf` is the NUL it started with, the task is not
about to store to it, and `lib_puts` is not past it. -/
def InBounds (s : PrintState) : Prop :=
  s.outBuf 999 = 0#8 ∧
    match s.pc with
    | .writing _ rest => ∀ e ∈ rest, e.1 < 999
    | .testing _ i => i ≤ 999
    | .sending _ i => i < 999
    | _ => True

/-- The counting pass, whatever the call is. -/
theorem ownStep_counting_cases {outBuf : Nat → Byte} {count : Word} {c : PrintCall}
    {sent : List Byte} {log : List (PrintCall × List Byte)} {t : PrintState}
    (h : ownStep ⟨outBuf, count, .counting c, sent, log⟩ = some t) :
    (∃ sent', t = ⟨outBuf, count, .looping c, sent', log⟩) ∨
      ∃ n st, n.toNat < outBufSize ∧
        t = ⟨outBuf, count, .writing c (passStores c.vl c.mem n c.format st), sent, log⟩ := by
  simp only [ownStep] at h
  split at h
  · cases h
    exact Or.inl ⟨_, rfl⟩
  · split at h
    · cases h
      exact Or.inl ⟨_, rfl⟩
    · next hsmall =>
        split at h
        · cases h
          exact Or.inl ⟨_, rfl⟩
        · cases h
          exact Or.inr ⟨_, _, Nat.lt_of_not_le hsmall, rfl⟩

/-- A step of the task stays in bounds. -/
theorem inBounds_own {s t : PrintState} (h : InBounds s) (hstep : ownStep s = some t) :
    InBounds t := by
  obtain ⟨outBuf, count, pc, sent, log⟩ := s
  obtain ⟨hlast, hpc⟩ := h
  cases pc with
  | idle => cases hstep
  | counting c =>
      rcases ownStep_counting_cases hstep with ⟨sent', rfl⟩ | ⟨n, st, hn, rfl⟩
      · exact ⟨hlast, trivial⟩
      · -- The writing pass has a size below 1000.
        refine ⟨hlast, fun e he => ?_⟩
        have hn' : n.toNat < 1000 := hn
        have hlt := passStores_lt n c.vl c.mem c.format st e he
        omega
  | writing c rest =>
      cases rest with
      | nil =>
          cases hstep
          exact ⟨hlast, Nat.zero_le _⟩
      | cons e rest =>
          cases hstep
          refine ⟨?_, fun e' he' => hpc e' (List.mem_cons_of_mem _ he')⟩
          have hne : 999 ≠ e.1 := Nat.ne_of_gt (hpc e List.mem_cons_self)
          show Function.update outBuf e.1 e.2 999 = 0#8
          rw [Function.update_of_ne hne]
          exact hlast
  | testing c i =>
      have hi : i ≤ 999 := hpc
      simp only [ownStep] at hstep
      split at hstep
      · cases hstep
        exact ⟨hlast, trivial⟩
      · next hbyte =>
          cases hstep
          -- At 999 there is the NUL, which would have ended the loop.
          have hne : i ≠ 999 := by
            rintro rfl
            exact hbyte hlast
          refine ⟨hlast, ?_⟩
          show i < 999
          omega
  | sending c i =>
      cases hstep
      exact ⟨hlast, hpc⟩
  | looping c =>
      cases hstep
      exact ⟨hlast, trivial⟩

/-- So does any event. -/
theorem inBounds_step {s t : PrintState} {e : PrintEvent} (h : InBounds s)
    (hstep : printStep s e = some t) : InBounds t := by
  cases e with
  | call c =>
      obtain rfl := printStep_call hstep
      exact ⟨h.1, trivial⟩
  | own => exact inBounds_own h hstep
  | trap =>
      obtain ⟨o, rfl, hbytes⟩ := timerTrap_cases hstep
      refine ⟨?_, h.2⟩
      have hlen := length_handlerText_le (s.timerCount + 1#32)
      have hbeyond : (handlerBytes (s.timerCount + 1#32))[999]? = none := by
        rw [List.getElem?_eq_none_iff, handlerBytes, List.length_append, List.length_singleton]
        omega
      show o 999 = 0#8
      rw [hbytes, hbeyond]
      exact h.1

/-! ### A call that the traps leave alone -/

/-- The length of the rendering. -/
def width (c : PrintCall) : Nat := ((renderingOf c).getD []).length

/-- The task has stored the byte `i` of its text or its NUL and has yet to
read it. -/
def Live : PrintPc → Nat → Prop
  | .writing c rest, i => i ≤ width c ∧ i ∉ rest.map Prod.fst
  | .testing c i₀, i => i₀ ≤ i ∧ i ≤ width c
  | .sending c i₀, i => i₀ ≤ i ∧ i ≤ width c
  | _, _ => False

/-- A trap stores nothing on a live byte but what is there. -/
def Harmless (s : PrintState) : Prop :=
  ∀ i b, Live s.pc i → (handlerBytes (s.timerCount + 1#32))[i]? = some b → s.outBuf i = b

/-- The calls fit, and the traps are harmless. -/
def Undisturbed (s : PrintState) : PrintEvent → Prop
  | .call c => FitsOutBuf c
  | .own => True
  | .trap => Harmless s

/-- Each live byte is that of the text or its NUL. -/
def Kept (s : PrintState) (text : List Byte) : Prop :=
  ∀ i b, Live s.pc i → (text ++ [0#8])[i]? = some b → s.outBuf i = b

/-- What holds while the traps are harmless. -/
def Sound (s : PrintState) : Prop :=
  (∀ e ∈ s.log, renderingOf e.1 = some e.2) ∧
    match s.pc with
    | .idle => True
    | .counting c => FitsOutBuf c ∧ s.sent = []
    | .writing c rest => ∃ text, Renders c text ∧ Kept s text ∧ s.sent = [] ∧
        ∀ e ∈ rest, Laid 0 (text ++ [0#8]) e
    | .testing c i => ∃ text, Renders c text ∧ Kept s text ∧ i ≤ text.length ∧
        s.sent = text.take i
    | .sending c i => ∃ text, Renders c text ∧ Kept s text ∧ i < text.length ∧
        s.sent = text.take i
    | .looping _ => False

/-- The width is the length of the text. -/
theorem Renders.width {c : PrintCall} {text : List Byte} (h : Renders c text) :
    width c = text.length := by
  rw [Proofs.width, h.rendered]
  rfl

/-- A byte of the text, and no NUL, or the NUL behind it. -/
theorem Renders.byte {c : PrintCall} {text : List Byte} (h : Renders c text) {i : Nat}
    (hi : i ≤ text.length) :
    ∃ b, (text ++ [0#8])[i]? = some b ∧ (b = 0#8 ↔ i = text.length) ∧
      (i < text.length → text.take (i + 1) = text.take i ++ [b]) := by
  rcases Nat.lt_or_eq_of_le hi with hlt | rfl
  · refine ⟨text[i], ?_, ?_, fun _ => List.take_succ_eq_append_getElem hlt⟩
    · rw [List.getElem?_append_left hlt, List.getElem?_eq_getElem hlt]
    · have hne := h.ne_nul _ (List.getElem_mem hlt)
      exact ⟨fun hb => absurd hb hne, fun hi => absurd hi (Nat.ne_of_lt hlt)⟩
  · refine ⟨0#8, ?_, ⟨fun _ => rfl, fun _ => rfl⟩, fun h => absurd h (Nat.lt_irrefl _)⟩
    rw [List.getElem?_append_right (Nat.le_refl _), Nat.sub_self]
    rfl

/-- What is left to do after the counting pass. -/
def left : PrintPc → Nat
  | .writing c rest => rest.length + 2 * width c + 2
  | .testing c i => 2 * (width c - i) + 1
  | .sending c i => 2 * (width c - i)
  | _ => 0

/-- The task goes on, stays on its track, and gets closer to its end. -/
theorem sound_own {s : PrintState} (h : Sound s) (hidle : s.pc ≠ .idle) :
    ∃ t, ownStep s = some t ∧ Sound t ∧ (∀ c, t.pc ≠ .counting c) ∧
      ((∀ c, s.pc ≠ .counting c) → left t.pc < left s.pc) := by
  obtain ⟨outBuf, count, pc, sent, log⟩ := s
  obtain ⟨hlog, hpc⟩ := h
  cases pc with
  | idle => exact absurd rfl hidle
  | counting c =>
      obtain ⟨hfits, hsent⟩ := hpc
      obtain ⟨text, stores, hrenders, hstores, hstep⟩ :=
        ownStep_counting (s := ⟨outBuf, count, .counting c, sent, log⟩) rfl hfits
      refine ⟨_, hstep, ⟨hlog, text, hrenders, ?_, hsent, fun e => (hstores e).mp⟩,
        fun c' h => (by cases h), fun h => absurd rfl (h c)⟩
      -- No byte is stored yet.
      rintro i b ⟨-, hi⟩ hb
      have hmem : (i, b) ∈ stores := (hstores (i, b)).mpr ⟨Nat.zero_le i, hb⟩
      exact absurd (List.mem_map_of_mem hmem) hi
  | writing c rest =>
      obtain ⟨text, hrenders, hkept, hsent, hrest⟩ := hpc
      cases rest with
      | nil =>
          refine ⟨_, rfl, ⟨hlog, text, hrenders, ?_, Nat.zero_le _, hsent⟩,
            fun c' h => (by cases h), fun _ => ?_⟩
          · exact fun i b ⟨_, hi⟩ hb => hkept i b ⟨hi, List.not_mem_nil⟩ hb
          · show 2 * (width c - 0) + 1 < 0 + 2 * width c + 2
            omega
      | cons e rest =>
          refine ⟨_, rfl, ⟨hlog, text, hrenders, ?_, hsent, ?_⟩, fun c' h => (by cases h),
            fun _ => ?_⟩
          · rintro i b ⟨hi, hnot⟩ hb
            show Function.update outBuf e.1 e.2 i = b
            by_cases hie : i = e.1
            · have hlaid := (hrest e List.mem_cons_self).2
              rw [hie] at hb
              rw [hie, Function.update_self]
              exact Option.some.inj (hlaid.symm.trans hb)
            · rw [Function.update_of_ne hie]
              exact hkept i b ⟨hi, fun h => (List.mem_cons.mp h).elim hie hnot⟩ hb
          · exact fun e' he' => hrest e' (List.mem_cons_of_mem _ he')
          · show rest.length + 2 * width c + 2 < rest.length + 1 + 2 * width c + 2
            omega
  | testing c i =>
      obtain ⟨text, hrenders, hkept, hi, hsent⟩ := hpc
      have hwidth := hrenders.width
      obtain ⟨b, hb, hnul, -⟩ := hrenders.byte hi
      have hbyte : outBuf i = b := hkept i b ⟨Nat.le_refl i, by omega⟩ hb
      by_cases hend : b = 0#8
      · -- The NUL of the text.
        have hlen := hnul.mp hend
        refine ⟨_, if_pos (hbyte.trans hend), ⟨?_, trivial⟩, fun c' h => (by cases h), fun _ => ?_⟩
        · refine List.forall_mem_append.mpr ⟨hlog, ?_⟩
          rintro e he
          obtain rfl := List.mem_singleton.mp he
          have hall : sent = text := by
            rw [show sent = text.take i from hsent, hlen, List.take_length]
          rw [hall]
          exact hrenders.rendered
        · exact Nat.succ_pos _
      · have hlt : i < text.length := Nat.lt_of_le_of_ne hi fun h => hend (hnul.mpr h)
        refine ⟨_, if_neg (fun h => hend (hbyte.symm.trans h)),
          ⟨hlog, text, hrenders, hkept, hlt, hsent⟩, fun c' h => (by cases h), fun _ => ?_⟩
        exact Nat.lt_succ_self _
  | sending c i =>
      obtain ⟨text, hrenders, hkept, hlt, hsent⟩ := hpc
      have hwidth := hrenders.width
      obtain ⟨b, hb, -, htake⟩ := hrenders.byte (Nat.le_of_lt hlt)
      have hbyte : outBuf i = b := hkept i b ⟨Nat.le_refl i, by omega⟩ hb
      refine ⟨_, rfl, ⟨hlog, text, hrenders, ?_, hlt, ?_⟩, fun c' h => (by cases h), fun _ => ?_⟩
      · exact fun j b' ⟨hle, hj⟩ hb' => hkept j b' ⟨Nat.le_of_succ_le hle, hj⟩ hb'
      · show sent ++ [outBuf i] = text.take (i + 1)
        rw [htake hlt, hbyte, show sent = text.take i from hsent]
      · show 2 * (width c - (i + 1)) + 1 < 2 * (width c - i)
        omega
  | looping c => exact absurd hpc id

/-- The step lemma. -/
theorem sound_step {s t : PrintState} {e : PrintEvent} (h : Sound s) (hok : Undisturbed s e)
    (hstep : printStep s e = some t) : Sound t := by
  cases e with
  | call c =>
      obtain rfl := printStep_call hstep
      exact ⟨h.1, hok, rfl⟩
  | own =>
      have hidle : s.pc ≠ .idle := by
        intro hpc
        have hnone : ownStep s = none := by rw [ownStep, hpc]
        exact absurd (hnone.symm.trans hstep) (by simp)
      obtain ⟨t', hstep', hsound, -⟩ := sound_own h hidle
      obtain rfl := Option.some.inj (hstep'.symm.trans hstep)
      exact hsound
  | trap =>
      obtain ⟨o, rfl, hbytes⟩ := timerTrap_cases hstep
      -- Where the handler stores on a live byte, it stores what is there.
      have hkept : ∀ text, Kept s text →
          Kept { s with outBuf := o, timerCount := s.timerCount + 1#32 } text := by
        intro text hkept i b hlive hb
        show o i = b
        rw [hbytes]
        cases hstored : (handlerBytes (s.timerCount + 1#32))[i]? with
        | none => exact hkept i b hlive hb
        | some b' =>
            have hsame : s.outBuf i = b' := hok i b' hlive hstored
            exact hsame.symm.trans (hkept i b hlive hb)
      obtain ⟨outBuf, count, pc, sent, log⟩ := s
      obtain ⟨hlog, hpc⟩ := h
      refine ⟨hlog, ?_⟩
      cases pc with
      | idle => trivial
      | counting c => exact hpc
      | writing c rest =>
          obtain ⟨text, hrenders, hold, hrest⟩ := hpc
          exact ⟨text, hrenders, hkept text hold, hrest⟩
      | testing c i =>
          obtain ⟨text, hrenders, hold, hrest⟩ := hpc
          exact ⟨text, hrenders, hkept text hold, hrest⟩
      | sending c i =>
          obtain ⟨text, hrenders, hold, hrest⟩ := hpc
          exact ⟨text, hrenders, hkept text hold, hrest⟩
      | looping c => exact hpc

/-! ### The rest of the call -/

/-- The call under way. -/
def callOf : PrintPc → Option PrintCall
  | .idle => none
  | .counting c => some c
  | .writing c _ => some c
  | .testing c _ => some c
  | .sending c _ => some c
  | .looping c => some c

/-- Each call that has returned has sent its rendering, the call under way
has sent the beginning of its own, and it returns if it is left alone. -/
structure Survives (s : PrintState) : Prop where
  returned : ∀ e ∈ s.log, renderingOf e.1 = some e.2
  underway : ∀ c, callOf s.pc = some c → ∃ text, renderingOf c = some text ∧ s.sent <+: text
  returns : ∃ k t, printSystem.Run s (List.replicate k .own) t ∧ t.pc = .idle

/-- A step of the task and then some more. -/
theorem run_own {s t u : PrintState} {k : Nat} (hstep : ownStep s = some t)
    (hrun : printSystem.Run t (List.replicate k .own) u) :
    printSystem.Run s (List.replicate (k + 1) .own) u := by
  have hfirst : printSystem.step s .own t := hstep
  exact (System.Run.single hfirst).append hrun

/-- From the writing pass on, the task returns. Induction on what is left. -/
theorem returns_of_left (n : Nat) :
    ∀ s, Sound s → (∀ c, s.pc ≠ .counting c) → left s.pc ≤ n →
      ∃ k t, printSystem.Run s (List.replicate k .own) t ∧ t.pc = .idle := by
  induction n with
  | zero =>
      intro s hsound hnot hleft
      by_cases hidle : s.pc = .idle
      · exact ⟨0, s, System.Run.nil s, hidle⟩
      · obtain ⟨t, -, -, -, hless⟩ := sound_own hsound hidle
        have := hless hnot
        omega
  | succ n ih =>
      intro s hsound hnot hleft
      by_cases hidle : s.pc = .idle
      · exact ⟨0, s, System.Run.nil s, hidle⟩
      · obtain ⟨t, hstep, hsound', hnot', hless⟩ := sound_own hsound hidle
        have hlt := hless hnot
        obtain ⟨k, u, hrun, hu⟩ := ih t hsound' hnot' (by omega)
        exact ⟨k + 1, u, run_own hstep hrun, hu⟩

/-- What holds while the traps are harmless says that the calls survive. -/
theorem survives_of_sound {s : PrintState} (h : Sound s) : Survives s where
  returned := h.1
  underway := by
    obtain ⟨outBuf, count, pc, sent, log⟩ := s
    obtain ⟨-, hpc⟩ := h
    -- By place: before `lib_puts` nothing is sent, in it the text up to `i`.
    intro c hc
    cases pc with
    | idle => cases hc
    | counting c' =>
        cases hc
        obtain ⟨⟨text, -, hrenders, -⟩, hsent⟩ := hpc
        have hnil : sent = [] := hsent
        exact ⟨text, hrenders.rendered, hnil ▸ List.nil_prefix⟩
    | writing c' rest =>
        cases hc
        obtain ⟨text, hrenders, -, hsent, -⟩ := hpc
        have hnil : sent = [] := hsent
        exact ⟨text, hrenders.rendered, hnil ▸ List.nil_prefix⟩
    | testing c' i =>
        cases hc
        obtain ⟨text, hrenders, -, -, hsent⟩ := hpc
        have htake : sent = text.take i := hsent
        exact ⟨text, hrenders.rendered, htake ▸ List.take_prefix i text⟩
    | sending c' i =>
        cases hc
        obtain ⟨text, hrenders, -, -, hsent⟩ := hpc
        have htake : sent = text.take i := hsent
        exact ⟨text, hrenders.rendered, htake ▸ List.take_prefix i text⟩
    | looping c' => exact absurd hpc id
  returns := by
    -- A call in its counting pass makes that step first.
    by_cases hcount : ∃ c, s.pc = .counting c
    · obtain ⟨c, hc⟩ := hcount
      obtain ⟨t, hstep, hsound, hnot, -⟩ := sound_own h (by rw [hc]; exact fun h => by cases h)
      obtain ⟨k, u, hrun, hu⟩ := returns_of_left _ t hsound hnot (Nat.le_refl _)
      exact ⟨k + 1, u, run_own hstep hrun, hu⟩
    · exact returns_of_left _ s h (fun c hc => hcount ⟨c, hc⟩) (Nat.le_refl _)

/-- What each step of the task keeps, a run of such steps keeps. -/
theorem run_own_keeps {I : PrintState → Prop}
    (hstep : ∀ s t, I s → ownStep s = some t → I t) {s t : PrintState} {k : Nat} (h : I s)
    (hrun : printSystem.Run s (List.replicate k .own) t) : I t := by
  have hkeeps : ∀ s e t, I s → e = PrintEvent.own → printSystem.step s e t → I t := by
    rintro s e t hs rfl hst
    exact hstep s t hs hst
  refine System.invariant_of_allowed hkeeps h hrun fun pre e post _ hes _ => ?_
  have hmem : e ∈ List.replicate k PrintEvent.own := by
    rw [hes]
    exact List.mem_append_right pre List.mem_cons_self
  exact List.eq_of_mem_replicate hmem

/-- A live byte is not that of the text. -/
def WrongByte (s : PrintState) (text : List Byte) : Prop :=
  ∃ i b, Live s.pc i ∧ (text ++ [0#8])[i]? = some b ∧ s.outBuf i ≠ b

/-- The call under way does not come out right any more, or one has not. -/
def Spoiled (s : PrintState) : Prop :=
  match s.pc with
  | .idle => ∃ e ∈ s.log, renderingOf e.1 ≠ some e.2
  | .writing c _ => ∃ text, Renders c text ∧ s.sent = [] ∧ WrongByte s text
  | .testing c i => ∃ text, Renders c text ∧
      (s.sent = text.take i ∧ WrongByte s text ∨ ¬ s.sent <+: text)
  | .sending c i => ∃ text, Renders c text ∧
      (s.sent = text.take i ∧ WrongByte s text ∨ ¬ s.sent <+: text)
  | _ => False

/-- What is sent next after the beginning of a text is its next byte, if it
is still the beginning of it. -/
theorem next_of_isPrefix {text : List Byte} {i : Nat} {b : Byte} (hi : i ≤ text.length)
    (h : text.take i ++ [b] <+: text) : text[i]? = some b := by
  have hlen : (text.take i).length = i := List.length_take_of_le hi
  rw [List.prefix_iff_getElem?.mp h i (by simp [hlen])]
  simp [hlen]

/-- The task does not repair it. -/
theorem spoiled_own (s t : PrintState) (h : Spoiled s) (hstep : ownStep s = some t) :
    Spoiled t := by
  obtain ⟨outBuf, count, pc, sent, log⟩ := s
  cases pc with
  | idle => cases hstep
  | counting c => exact absurd h id
  | writing c rest =>
      obtain ⟨text, hrenders, hsent, i, b, ⟨hi, hnot⟩, hb, hwrong⟩ := h
      -- The store is of another byte than the wrong one.
      cases rest with
      | nil =>
          cases hstep
          exact ⟨text, hrenders, Or.inl ⟨hsent, i, b, ⟨Nat.zero_le i, hi⟩, hb, hwrong⟩⟩
      | cons e rest =>
          cases hstep
          have hne : i ≠ e.1 := fun h => hnot (List.mem_cons.mpr (Or.inl h))
          refine ⟨text, hrenders, hsent, i, b,
            ⟨hi, fun h => hnot (List.mem_cons_of_mem _ h)⟩, hb, ?_⟩
          show Function.update outBuf e.1 e.2 i ≠ b
          rw [Function.update_of_ne hne]
          exact hwrong
  | testing c i =>
      obtain ⟨text, hrenders, hcase⟩ := h
      have hwidth := hrenders.width
      simp only [ownStep] at hstep
      split at hstep
      · next hnul =>
          cases hstep
          refine ⟨(c, sent), List.mem_append_right log List.mem_cons_self, fun hsame => ?_⟩
          have htext : text = sent := Option.some.inj (hrenders.rendered.symm.trans hsame)
          rcases hcase with ⟨hsent, j, b, ⟨hij, hj⟩, hb, hwrong⟩ | hnot
          · -- All of it was sent, so the wrong byte is the NUL just read.
            have hsent' : sent = text.take i := hsent
            have hlen := congrArg List.length (htext.trans hsent')
            rw [List.length_take] at hlen
            obtain rfl : j = i := by omega
            obtain ⟨b', hb', hend, -⟩ := hrenders.byte (i := j) (by omega)
            have hzero : b' = 0#8 := hend.mpr (by omega)
            have hbb : b = b' := Option.some.inj (hb.symm.trans hb')
            exact hwrong (hnul.trans (hbb.trans hzero).symm)
          · exact hnot (htext ▸ List.prefix_refl _)
      · cases hstep
        exact ⟨text, hrenders, hcase⟩
  | sending c i =>
      obtain ⟨text, hrenders, hcase⟩ := h
      have hwidth := hrenders.width
      cases hstep
      refine ⟨text, hrenders, ?_⟩
      show (sent ++ [outBuf i] = text.take (i + 1) ∧ _) ∨ ¬ sent ++ [outBuf i] <+: text
      rcases hcase with ⟨hsent, j, b, ⟨hij, hj⟩, hb, hwrong⟩ | hnot
      · have hsent' : sent = text.take i := hsent
        -- Either the byte sent is right, and the wrong one is still to come.
        by_cases hright : text[i]? = some (outBuf i)
        · refine Or.inl ⟨by rw [List.take_add_one, hright, hsent']; rfl, j, b, ⟨?_, hj⟩, hb, hwrong⟩
          have hne : i ≠ j := by
            rintro rfl
            have hlt := (List.getElem?_eq_some_iff.mp hright).1
            rw [List.getElem?_append_left hlt] at hb
            exact hwrong (Option.some.inj (hright.symm.trans hb))
          show i + 1 ≤ j
          omega
        · -- Or the text that was sent has a wrong byte for good.
          rw [hsent']
          exact Or.inr fun hprefix => hright (next_of_isPrefix (by omega) hprefix)
      · exact Or.inr fun hprefix => hnot ((List.prefix_append sent [outBuf i]).trans hprefix)
  | looping c => exact absurd h id

/-- A trap that is not harmless spoils the call. -/
theorem spoiled_trap {s t : PrintState} (h : Sound s) (hharm : ¬ Harmless s)
    (hstep : timerTrap s = some t) : Spoiled t := by
  obtain ⟨o, rfl, hbytes⟩ := timerTrap_cases hstep
  -- The trap has put another byte where the call is going to read.
  obtain ⟨i, b, hlive, hstored, hne⟩ : ∃ i b, Live s.pc i ∧
      (handlerBytes (s.timerCount + 1#32))[i]? = some b ∧ s.outBuf i ≠ b := by
    simpa [Harmless] using hharm
  have hwrong : ∀ c text, Renders c text → i ≤ width c → Kept s text →
      WrongByte { s with outBuf := o, timerCount := s.timerCount + 1#32 } text := by
    intro c text hrenders hi hkept
    rw [hrenders.width] at hi
    obtain ⟨b', hb', -⟩ := hrenders.byte hi
    refine ⟨i, b', hlive, hb', ?_⟩
    show o i ≠ b'
    rw [hbytes, hstored, ← hkept i b' hlive hb']
    exact hne.symm
  obtain ⟨outBuf, count, pc, sent, log⟩ := s
  obtain ⟨-, hpc⟩ := h
  -- That byte is live only once the call is past its counting pass.
  cases pc with
  | idle => exact absurd hlive id
  | counting c => exact absurd hlive id
  | writing c rest =>
      obtain ⟨text, hrenders, hkept, hsent, -⟩ := hpc
      exact ⟨text, hrenders, hsent, hwrong c text hrenders hlive.1 hkept⟩
  | testing c i₀ =>
      obtain ⟨text, hrenders, hkept, -, hsent⟩ := hpc
      exact ⟨text, hrenders, Or.inl ⟨hsent, hwrong c text hrenders hlive.2 hkept⟩⟩
  | sending c i₀ =>
      obtain ⟨text, hrenders, hkept, -, hsent⟩ := hpc
      exact ⟨text, hrenders, Or.inl ⟨hsent, hwrong c text hrenders hlive.2 hkept⟩⟩
  | looping c => exact absurd hlive id

/-- After a trap the call survives, left alone, exactly if the trap was
harmless. -/
theorem harmless_iff {s t : PrintState} (h : Sound s) (hstep : timerTrap s = some t) :
    (∀ k u, printSystem.Run t (List.replicate k .own) u → Survives u) ↔ Harmless s := by
  constructor
  · intro hall
    by_contra hharm
    have hspoiled := spoiled_trap h hharm hstep
    obtain ⟨k, u, hrun, hidle⟩ := (hall 0 t (System.Run.nil t)).returns
    have hend := run_own_keeps spoiled_own hspoiled hrun
    rw [Spoiled, hidle] at hend
    obtain ⟨e, he, hne⟩ := hend
    exact hne ((hall k u hrun).returned e he)
  · intro hharm k u hrun
    have hsound : Sound t := sound_step (e := .trap) h hharm hstep
    refine survives_of_sound (run_own_keeps ?_ hsound hrun)
    exact fun s t hs hst => sound_step (e := .own) hs trivial hst

/-- The run lemma for the runs with harmless traps only. -/
theorem sound_run {es : List PrintEvent} {s : PrintState} (hrun : printSystem.Run printInit es s)
    (hok : System.Run.Allowed printSystem Undisturbed printInit es) : Sound s :=
  System.invariant_of_allowed (fun _ _ _ => sound_step) ⟨List.forall_mem_nil _, trivial⟩ hrun hok

/-- When `lib_printf` survives the timer. In every run `lib_puts` reads
inside of `out_buf`. In every run whose calls fit and whose traps store
nothing else on a byte that the task has stored and has yet to read, each
call sends its rendering. And such a trap is the only one after which the
call, left alone, still does. -/
theorem printf_survives_iff (es : List PrintEvent) (s : PrintState)
    (hrun : printSystem.Run printInit es s) :
    (∀ c i, s.pc = .testing c i ∨ s.pc = .sending c i → i < outBufSize) ∧
      (System.Run.Allowed printSystem Undisturbed printInit es →
        Survives s ∧
          ∀ t, printStep s .trap = some t →
            ((∀ k u, printSystem.Run t (List.replicate k .own) u → Survives u) ↔
              Harmless s)) := by
  constructor
  · -- The bound on `i` is an invariant and needs nothing of the traps.
    intro c i hpc
    have hinit : InBounds printInit := ⟨rfl, trivial⟩
    obtain ⟨-, hat⟩ := hrun.preserves (fun _ _ _ => inBounds_step) hinit
    show i < 1000
    rcases hpc with hpc | hpc
    · rw [hpc] at hat
      exact Nat.lt_succ_of_le hat
    · rw [hpc] at hat
      have hlt : i < 999 := hat
      omega
  · intro hok
    -- A run of undisturbed steps keeps the buffer as the call left it.
    have hsound := sound_run hrun hok
    exact ⟨survives_of_sound hsound, fun t hstep => harmless_iff hsound hstep⟩

/-- `lib_printf("hello")`. -/
def hello : PrintCall := ⟨fun _ => 0#32, fun _ => 0#8, "hello".toList.map asc⟩

/-- The call prints its format as it is. -/
theorem hello_renders : Renders hello ("hello".toList.map asc) := ⟨by decide, by decide⟩

/-- The text is short enough. -/
theorem hello_fitsOutBuf : FitsOutBuf hello :=
  ⟨_, _, hello_renders, rfl, by decide, by decide⟩

/-- A trap in the counting pass of `hello`, and the call after it. -/
def helloEarly : List PrintEvent := [.call hello, .trap] ++ List.replicate 19 .own

/-- The one trap comes before a byte is stored. -/
theorem helloEarly_undisturbed :
    System.Run.Allowed printSystem Undisturbed printInit helloEarly := by
  intro pre e post t hes hrun
  rcases pre with _ | ⟨e₀, _ | ⟨e₁, pre⟩⟩
  · obtain rfl : PrintEvent.call hello = e := (List.cons.inj hes).1
    exact hello_fitsOutBuf
  · obtain ⟨rfl, htail⟩ := List.cons.inj hes
    obtain rfl : PrintEvent.trap = e := (List.cons.inj htail).1
    have hcall : printSystem.Run printInit [.call hello]
        { printInit with pc := .counting hello } := System.ofStep?_run rfl
    obtain rfl := hrun.unique System.ofStep?_det hcall
    -- Nothing is live yet.
    exact fun i b hlive => absurd hlive id
  · have hmem : e ∈ List.replicate 19 PrintEvent.own := by
      have htail : List.replicate 19 PrintEvent.own = pre ++ e :: post :=
        (List.cons.inj (List.cons.inj hes).2).2
      rw [htail]
      exact List.mem_append_right pre List.mem_cons_self
    rw [List.eq_of_mem_replicate hmem]
    trivial

/-- `hello` survives a trap in its counting pass. -/
theorem hello_survives :
    ∃ s, printSystem.Run printInit helloEarly s ∧ s.log.map Prod.snd = ["hello".toList.map asc] ∧
      (∀ c i, s.pc = .testing c i ∨ s.pc = .sending c i → i < outBufSize) ∧ Survives s := by
  have hlog : (helloEarly.foldlM printStep printInit).map (fun s => s.log.map Prod.snd)
      = some ["hello".toList.map asc] := by decide
  obtain ⟨s, hs, hsent⟩ := Option.map_eq_some_iff.mp hlog
  have hrun : printSystem.Run printInit helloEarly s := System.ofStep?_run hs
  obtain ⟨hinside, hsurvives⟩ := printf_survives_iff helloEarly s hrun
  exact ⟨s, hrun, hsent, hinside, (hsurvives helloEarly_undisturbed).1⟩

/-- A trap between the writing pass of `hello` and `lib_puts`, and the rest
of the call. -/
def helloLate : List PrintEvent :=
  .call hello :: (List.replicate 8 .own ++ .trap :: List.replicate 35 .own)

/-- The call sends the text of the handler in place of its own. -/
theorem hello_overwritten :
    renderingOf hello = some ("hello".toList.map asc) ∧
    (helloLate.foldlM printStep printInit).map (fun s => s.log.map Prod.snd)
      = some ["timer_handler: 1\n".toList.map asc] ∧
    ¬ ∀ es s, (∀ c, .call c ∈ es → ∃ text, renderingOf c = some text ∧
        text.length < outBufSize) → printSystem.Run printInit es s → Survives s := by
  -- The run ends with the text of the handler in the log of the call.
  have hlog : (helloLate.foldlM printStep printInit).map
      (fun s => s.log.map fun e => (renderingOf e.1, e.2))
      = some [(some ("hello".toList.map asc), "timer_handler: 1\n".toList.map asc)] := by decide
  refine ⟨hello_renders.rendered, by decide, fun hall => ?_⟩
  obtain ⟨s, hs, hentries⟩ := Option.map_eq_some_iff.mp hlog
  have hsurvives := hall helloLate s (fun c hc => ?_) (System.ofStep?_run hs)
  · -- The entry of the call is not its rendering.
    have hmem : (some ("hello".toList.map asc), "timer_handler: 1\n".toList.map asc)
        ∈ s.log.map fun e => (renderingOf e.1, e.2) := by
      rw [hentries]
      exact List.mem_singleton_self _
    obtain ⟨e, he, heq⟩ := List.mem_map.mp hmem
    obtain ⟨hrendering, hsent⟩ := Prod.mk.inj heq
    have hreturned := hsurvives.returned e he
    rw [hrendering, hsent] at hreturned
    exact absurd hreturned (by decide)
  · -- The only call of the run is `hello`, and its text fits.
    have hc' : PrintEvent.call c = .call hello := by
      simpa [helloLate] using hc
    cases hc'
    exact ⟨_, hello_renders.rendered, by decide⟩

end MiniRiscvOs.Proofs
