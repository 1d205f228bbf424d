import MiniRiscvOs.Kernel.Console

/-!
# `MiniRiscvOs.Proofs.Console`: which bytes `lib_getc` delivers

`lib_getc` reads `RHR` twice for every byte but a carriage return. A byte
that arrives between the two reads takes the place of the byte that the
first read saw, and it is not converted either.

`Effect` says once what an event does to the receiver and to the values
returned. Two invariants follow from it. Without an arrival between the two
reads of a call, the values are the arrived bytes in order (`InOrder`). And
each such arrival loses a byte for good, because no event makes up for the
difference between the bytes that arrived and those still to be had
(`held_step`). `console_delivers_iff` puts the two together.
-/

set_option autoImplicit false

namespace MiniRiscvOs.Proofs

open MiniRiscvOs.Lib
open MiniRiscvOs.Kernel.Serial

/-- What a caller should get for a byte: a newline for a carriage return. -/
def lineEnd (b : Byte) : Int := if b = carriageReturn then newline.toNat else b.toNat

/-- The value still to be had from the UART. -/
def available (u : Uart) : List Int := if u.ready then [lineEnd u.rhr] else []

/-- Every arrived byte has been returned, each once and in order, but for the
one that is still in the UART. -/
def Delivered (s : Console) : Prop := s.got ++ available s.uart = s.arrived.map lineEnd

instance (s : Console) : Decidable (Delivered s) := inferInstanceAs (Decidable (_ = _))

/-- The next register read of the call in progress. -/
def getcPc (s : Console) : Option GetcPc := s.call.map Prod.snd

/-- No call is between its register reads. -/
def AtRest (s : Console) : Prop := getcPc s = none ∨ getcPc s = some .status

/-- At rest a call is neither about to compare nor about to read the value. -/
theorem AtRest.ne {s : Console} (h : AtRest s) :
    getcPc s ≠ some .compare ∧ getcPc s ≠ some .value := by
  rcases h with h | h
  · simp [h]
  · simp [h]

/-- The UART is in no call between the two reads of `RHR` when a byte
arrives. -/
def NotBetween (s : Console) : ConsoleEvent → Prop
  | .arrive _ => getcPc s ≠ some .value
  | _ => True

/-! ### What an event does -/

/-- The effect of an event on the receiver, on the program counter of
`lib_getc` and on the values returned. -/
inductive Effect (s t : Console) : ConsoleEvent → Prop
  | arrive (b : Byte) (hready : s.uart.ready = false) (huart : t.uart = Uart.arrive b)
      (hpc : getcPc t = getcPc s) (hgot : t.got = s.got)
      (harrived : t.arrived = s.arrived ++ [b]) : Effect s t (.arrive b)
  | start (e : ConsoleEvent) (hcall : e = .isr ∨ e = .gets) (hpc : getcPc s = none)
      (hrest : AtRest t) (huart : t.uart = s.uart) (hgot : t.got = s.got)
      (harrived : t.arrived = s.arrived) : Effect s t e
  | empty (hpc : getcPc s = some .status) (hready : s.uart.ready = false) (hrest : AtRest t)
      (huart : t.uart = s.uart) (hgot : t.got = s.got) (harrived : t.arrived = s.arrived) :
      Effect s t .read
  | full (hpc : getcPc s = some .status) (hready : s.uart.ready = true)
      (hnext : getcPc t = some .compare) (huart : t.uart = s.uart) (hgot : t.got = s.got)
      (harrived : t.arrived = s.arrived) : Effect s t .read
  | converted (hpc : getcPc s = some .compare) (hbyte : s.uart.rhr = carriageReturn)
      (hrest : AtRest t) (huart : t.uart = s.uart.taken)
      (hgot : t.got = s.got ++ [(newline.toNat : Int)]) (harrived : t.arrived = s.arrived) :
      Effect s t .read
  | seen (hpc : getcPc s = some .compare) (hbyte : s.uart.rhr ≠ carriageReturn)
      (hnext : getcPc t = some .value) (huart : t.uart = s.uart.taken) (hgot : t.got = s.got)
      (harrived : t.arrived = s.arrived) : Effect s t .read
  | returned (hpc : getcPc s = some .value) (hrest : AtRest t) (huart : t.uart = s.uart.taken)
      (hgot : t.got = s.got ++ [(s.uart.rhr.toNat : Int)]) (harrived : t.arrived = s.arrived) :
      Effect s t .read

/-- What a return of `lib_getc` leaves, in either caller. -/
theorem getcReturns_effect (caller : Caller) (c : Int) (s : Console) :
    (getcReturns caller c s).uart = s.uart ∧
    (getcReturns caller c s).arrived = s.arrived ∧
    (getcReturns caller c s).got = (if c = -1 then s.got else s.got ++ [c]) ∧
    AtRest (getcReturns caller c s) := by
  cases caller with
  | isr =>
      simp only [getcReturns, libIsr]
      split <;> simp [AtRest, getcPc]
  | gets =>
      simp only [getcReturns, libGets]
      split
      · simp [AtRest, getcPc]
      · split <;> simp [AtRest, getcPc]

/-- A byte is never the value -1. -/
theorem toNat_ne_neg_one (b : Byte) : (b.toNat : Int) ≠ -1 := by
  omega

/-- The cases of one step. -/
theorem effect_of_step {s t : Console} {e : ConsoleEvent} (hstep : ConsoleStep s e t) :
    Effect s t e := by
  cases e with
  | arrive b =>
      obtain ⟨hready, rfl⟩ := hstep
      exact .arrive b hready rfl rfl rfl rfl
  | isr =>
      obtain ⟨hnone, rfl⟩ := hstep
      exact .start _ (by simp) (by simp [getcPc, hnone]) (Or.inr rfl) rfl rfl rfl
  | gets =>
      obtain ⟨hnone, rfl⟩ := hstep
      exact .start _ (by simp) (by simp [getcPc, hnone]) (Or.inr rfl) rfl rfl rfl
  -- A read is one of three, by where the call is.
  | read =>
      obtain ⟨caller, pc, hcall, rfl⟩ := hstep
      have hpc : getcPc s = some pc := by simp [getcPc, hcall]
      cases pc with
      | status =>
          by_cases hready : s.uart.ready = true
          · refine .full hpc hready ?_ ?_ ?_ ?_ <;> simp [libGetc, hready, getcPc]
          · have hready : s.uart.ready = false := by simpa using hready
            obtain ⟨huart, harr, hgot, hrest⟩ := getcReturns_effect caller (-1) s
            simp only [libGetc, hready]
            exact .empty hpc hready hrest huart hgot harr
      | compare =>
          by_cases hbyte : s.uart.rhr = carriageReturn
          · obtain ⟨huart, harr, hgot, hrest⟩ := getcReturns_effect caller newline.toNat
              { s with uart := s.uart.taken }
            simp only [libGetc, hbyte, if_true]
            exact .converted hpc hbyte hrest huart hgot harr
          · refine .seen hpc hbyte ?_ ?_ ?_ ?_ <;> simp [libGetc, hbyte, getcPc]
      | value =>
          obtain ⟨huart, harr, hgot, hrest⟩ := getcReturns_effect caller s.uart.rhr.toNat
            { s with uart := s.uart.taken }
          rw [if_neg (toNat_ne_neg_one _)] at hgot
          exact .returned hpc hrest huart hgot harr

/-! ### Without an arrival between the reads -/

/-- The values returned are in order, and the byte that the call in progress
has seen is still in the register. -/
structure InOrder (s : Console) : Prop where
  compare : getcPc s = some .compare → s.uart.ready = true
  value : getcPc s = some .value → s.uart.ready = false ∧ s.uart.rhr ≠ carriageReturn
  order : s.got ++ (if s.uart.ready = true ∨ getcPc s = some .value then [lineEnd s.uart.rhr]
    else []) = s.arrived.map lineEnd

namespace InOrder

variable {s t : Console}

/-- With nothing in the register all bytes have been returned. -/
theorem all_returned (hs : InOrder s) (hready : s.uart.ready = false)
    (hvalue : getcPc s ≠ some .value) : s.got = s.arrived.map lineEnd := by
  have horder := hs.order
  rwa [if_neg (by simp [hready, hvalue]), List.append_nil] at horder

/-- With a byte in the register all but that one have been returned. -/
theorem last_held (hs : InOrder s) (hheld : s.uart.ready = true ∨ getcPc s = some .value) :
    s.got ++ [lineEnd s.uart.rhr] = s.arrived.map lineEnd := by
  have horder := hs.order
  rwa [if_pos hheld] at horder

/-- No call is between its reads, and the register is empty. -/
theorem of_empty (hrest : AtRest t) (hready : t.uart.ready = false)
    (hgot : t.got = t.arrived.map lineEnd) : InOrder t := by
  obtain ⟨hcompare, hvalue⟩ := hrest.ne
  refine ⟨fun h => absurd h hcompare, fun h => absurd h hvalue, ?_⟩
  rw [if_neg (by simp [hready, hvalue]), List.append_nil]
  exact hgot

/-- The data-ready bit is set. -/
theorem of_ready (hready : t.uart.ready = true) (hvalue : getcPc t ≠ some .value)
    (hgot : t.got ++ [lineEnd t.uart.rhr] = t.arrived.map lineEnd) : InOrder t := by
  refine ⟨fun _ => hready, fun h => absurd h hvalue, ?_⟩
  rw [if_pos (Or.inl hready)]
  exact hgot

/-- A call is between its two reads of `RHR`. -/
theorem of_value (hpc : getcPc t = some .value) (hready : t.uart.ready = false)
    (hbyte : t.uart.rhr ≠ carriageReturn)
    (hgot : t.got ++ [lineEnd t.uart.rhr] = t.arrived.map lineEnd) : InOrder t := by
  refine ⟨fun h => ?_, fun _ => ⟨hready, hbyte⟩, ?_⟩
  · rw [hpc] at h
    exact absurd h (by simp)
  · rw [if_pos (Or.inr hpc)]
    exact hgot

end InOrder

/-- The step lemma of the order. -/
theorem inOrder_step {s t : Console} {e : ConsoleEvent} (hs : InOrder s) (hok : NotBetween s e)
    (hstep : ConsoleStep s e t) : InOrder t := by
  cases effect_of_step hstep with
  | arrive b hready huart hpc hgot harrived =>
      -- The byte before this one is not needed any more.
      have hnot : getcPc s ≠ some .value := hok
      have hall := hs.all_returned hready hnot
      refine .of_ready (by rw [huart]; rfl) (by rwa [hpc]) ?_
      rw [hgot, harrived, huart, hall, List.map_append]
      rfl
  | start e hcall hpc hrest huart hgot harrived =>
      cases hready : s.uart.ready with
      | true =>
          refine .of_ready (by rw [huart, hready]) hrest.ne.2 ?_
          rw [hgot, harrived, huart]
          exact hs.last_held (Or.inl hready)
      | false =>
          refine .of_empty hrest (by rw [huart, hready]) ?_
          rw [hgot, harrived]
          exact hs.all_returned hready (by simp [hpc])
  | empty hpc hready hrest huart hgot harrived =>
      refine .of_empty hrest (by rw [huart, hready]) ?_
      rw [hgot, harrived]
      exact hs.all_returned hready (by simp [hpc])
  | full hpc hready hnext huart hgot harrived =>
      refine .of_ready (by rw [huart, hready]) (by simp [hnext]) ?_
      rw [hgot, harrived, huart]
      exact hs.last_held (Or.inl hready)
  | converted hpc hbyte hrest huart hgot harrived =>
      have hheld := hs.last_held (Or.inl (hs.compare hpc))
      have hline : lineEnd s.uart.rhr = newline.toNat := if_pos hbyte
      refine .of_empty hrest (by rw [huart]; rfl) ?_
      rw [hgot, harrived, ← hheld, hline]
  | seen hpc hbyte hnext huart hgot harrived =>
      refine .of_value hnext (by rw [huart]; rfl) (by rw [huart]; exact hbyte) ?_
      rw [hgot, harrived, huart]
      exact hs.last_held (Or.inl (hs.compare hpc))
  | returned hpc hrest huart hgot harrived =>
      have hheld := hs.last_held (Or.inr hpc)
      have hline : lineEnd s.uart.rhr = s.uart.rhr.toNat := if_neg (hs.value hpc).2
      refine .of_empty hrest (by rw [huart]; rfl) ?_
      rw [hgot, harrived, ← hheld, hline]

/-! ### With one -/

/-- The number of bytes returned or still to be had. -/
def held (s : Console) : Nat :=
  s.got.length + if s.uart.ready = true ∨ getcPc s = some .value then 1 else 0

/-- A call that is about to compare has seen the data-ready bit, and the bit
is still set. -/
def SeesReady (s : Console) : Prop := getcPc s = some .compare → s.uart.ready = true

/-- Each step keeps it, from any state at all. -/
theorem seesReady_step {s t : Console} {e : ConsoleEvent}
    (hstep : ConsoleStep s e t) : SeesReady t := by
  unfold SeesReady
  cases effect_of_step hstep with
  | arrive b hready huart hpc hgot harrived => simp [huart, Uart.arrive]
  | start e hcall hpc hrest huart hgot harrived => exact fun h => absurd h hrest.ne.1
  | empty hpc hready hrest huart hgot harrived => exact fun h => absurd h hrest.ne.1
  | full hpc hready hnext huart hgot harrived => simp [huart, hready]
  | converted hpc hbyte hrest huart hgot harrived => exact fun h => absurd h hrest.ne.1
  | seen hpc hbyte hnext huart hgot harrived => simp [hnext]
  | returned hpc hrest huart hgot harrived => exact fun h => absurd h hrest.ne.1

/-- No event makes up for a lost byte, and an arrival between the two reads
loses one. -/
theorem held_step {s t : Console} {e : ConsoleEvent} (hs : SeesReady s)
    (hstep : ConsoleStep s e t) :
    held t + s.arrived.length ≤ held s + t.arrived.length ∧
      (¬ NotBetween s e → held t + s.arrived.length < held s + t.arrived.length) := by
  cases effect_of_step hstep with
  | arrive b hready huart hpc hgot harrived =>
      -- Between the two reads the byte that arrives takes the place of the one that
      -- `held` counts.
      by_cases hvalue : getcPc s = some .value
      · simp [held, NotBetween, huart, Uart.arrive, hpc, hgot, harrived, hvalue]
      · simp [held, NotBetween, huart, Uart.arrive, hpc, hgot, harrived, hready, hvalue]
        omega
  | start e hcall hpc hrest huart hgot harrived =>
      have hok : NotBetween s e := by rcases hcall with rfl | rfl <;> trivial
      simp [held, huart, hgot, harrived, hpc, hrest.ne.2, hok]
  | empty hpc hready hrest huart hgot harrived =>
      simp [held, huart, hgot, harrived, hpc, hrest.ne.2, NotBetween]
  | full hpc hready hnext huart hgot harrived =>
      simp [held, huart, hgot, harrived, hready, NotBetween]
  | converted hpc hbyte hrest huart hgot harrived =>
      -- The byte compared was there, and it is there no more.
      have hready := hs hpc
      simp [held, huart, Uart.taken, hgot, harrived, hready, hrest.ne.2, NotBetween]
  | seen hpc hbyte hnext huart hgot harrived =>
      have hready := hs hpc
      simp [held, hgot, harrived, hready, hnext, NotBetween]
  | returned hpc hrest huart hgot harrived =>
      simp [held, huart, Uart.taken, hgot, harrived, hpc, hrest.ne.2, NotBetween]

/-- The run lemma of `held_step`. -/
theorem held_run {s t : Console} {es : List ConsoleEvent} (hrun : consoleSystem.Run s es t)
    (hs : SeesReady s) :
    SeesReady t ∧ held t + s.arrived.length ≤ held s + t.arrived.length := by
  refine hrun.preserves
    (I := fun t => SeesReady t ∧ held t + s.arrived.length ≤ held s + t.arrived.length)
    (fun t e t' ht hstep => ?_) ⟨hs, Nat.le_refl _⟩
  have hone := (held_step ht.1 hstep).1
  exact ⟨seesReady_step hstep, by omega⟩

/-! ### The main result -/

/-- The event decides the next state. -/
theorem consoleSystem_deterministic (s : Console) (e : ConsoleEvent) (t t' : Console)
    (h : consoleSystem.step s e t) (h' : consoleSystem.step s e t') : t = t' := by
  cases e with
  | arrive b => exact h.2.trans h'.2.symm
  | isr => exact h.2.trans h'.2.symm
  | gets => exact h.2.trans h'.2.symm
  | read =>
      obtain ⟨caller, pc, hcall, rfl⟩ := h
      obtain ⟨caller', pc', hcall', rfl⟩ := h'
      obtain ⟨rfl, rfl⟩ : caller = caller' ∧ pc = pc' := by simpa [hcall] using hcall'
      rfl

/-- Console input, for every sequence of bytes that arrives and every
interleaving of the arrivals with the register reads of `lib_getc`. In a run
that ends with no call in progress, the values returned are the arrived
bytes, each once and in order, exactly when no byte arrived between the two
reads of `RHR` of one call. -/
theorem console_delivers_iff {s₀ s : Console} {es : List ConsoleEvent}
    (hinit : consoleSystem.init s₀) (hrun : consoleSystem.Run s₀ es s) (hidle : s.call = none) :
    Delivered s ↔ System.Run.Allowed consoleSystem NotBetween s₀ es := by
  obtain ⟨hready, hcall, -, -, harrived, hgot⟩ := hinit
  have hpc : getcPc s = none := by simp [getcPc, hidle]
  have hpc₀ : getcPc s₀ = none := by simp [getcPc, hcall]
  have hsees : SeesReady s₀ := by simp [SeesReady, hpc₀]
  constructor
  · intro hdel
    refine System.Run.Allowed.of_steps consoleSystem_deterministic hrun ?_
    intro pre e post t t' hpre hstep hpost
    by_contra hbad
    -- Up to the arrival no byte was gained, at it one is lost, and none is gained after it.
    obtain ⟨hseest, hbefore⟩ := held_run hpre hsees
    have hat := (held_step hseest hstep).2 hbad
    have hafter := (held_run hpost (seesReady_step hstep)).2
    have hstart : held s₀ = 0 := by simp [held, hgot, hready, hpc₀]
    have hlength := congrArg List.length hdel
    have hend : held s = s.arrived.length := by
      rw [List.length_map] at hlength
      rw [← hlength]
      cases hr : s.uart.ready <;> simp [held, available, hr, hpc]
    rw [hstart, harrived, List.length_nil] at hbefore
    omega
  · intro hallowed
    have hstart : InOrder s₀ := .of_empty (Or.inl hpc₀) hready (by rw [hgot, harrived]; rfl)
    have horder := (System.invariant_of_allowed (M := consoleSystem) (I := InOrder)
      (fun _ _ _ => inOrder_step) hstart hrun hallowed).order
    simpa [Delivered, available, hpc] using horder

/-- The console before any byte has arrived. -/
def quietConsole : Console where
  uart := ⟨false, 0#8⟩
  call := none
  sent := []
  line := []
  arrived := []
  got := []

/-- The main result at a typed line: `lib_gets` reads the byte `a`, finds no other
byte once, and ends at the carriage return that arrives then. -/
theorem typedLine_delivered :
    ∃ es s, consoleSystem.Run quietConsole es s ∧ s.arrived = [0x61#8, 0x0d#8] ∧
      s.got = [0x61, 0x0a] ∧ s.line = [0x61#8, 0#8] ∧
      (Delivered s ↔ System.Run.Allowed consoleSystem NotBetween quietConsole es) := by
  have h0 := System.Run.nil (M := consoleSystem) quietConsole
  have h1 := h0.snoc (show consoleSystem.step _ (.arrive 0x61#8) _ from ⟨rfl, rfl⟩)
  have h2 := h1.snoc (show consoleSystem.step _ .gets _ from ⟨rfl, rfl⟩)
  have h3 := h2.snoc (show consoleSystem.step _ .read _ from ⟨.gets, .status, rfl, rfl⟩)
  have h4 := h3.snoc (show consoleSystem.step _ .read _ from ⟨.gets, .compare, rfl, rfl⟩)
  have h5 := h4.snoc (show consoleSystem.step _ .read _ from ⟨.gets, .value, rfl, rfl⟩)
  have h6 := h5.snoc (show consoleSystem.step _ .read _ from ⟨.gets, .status, rfl, rfl⟩)
  have h7 := h6.snoc (show consoleSystem.step _ (.arrive 0x0d#8) _ from ⟨rfl, rfl⟩)
  have h8 := h7.snoc (show consoleSystem.step _ .read _ from ⟨.gets, .status, rfl, rfl⟩)
  have h9 := h8.snoc (show consoleSystem.step _ .read _ from ⟨.gets, .compare, rfl, rfl⟩)
  exact ⟨_, _, h9, rfl, rfl, rfl, console_delivers_iff ⟨rfl, rfl, rfl, rfl, rfl, rfl⟩ h9 rfl⟩

/-- The byte `b` arrives after `lib_getc` has compared the byte `a`, and `a`
is lost. -/
theorem secondByte_lost :
    consoleSystem.init quietConsole ∧
    ∃ es s, consoleSystem.Run quietConsole es s ∧ s.call = none ∧ s.uart.ready = false ∧
      s.arrived = [0x61#8, 0x62#8] ∧ s.got = [0x62] ∧ ¬ Delivered s := by
  have h0 := System.Run.nil (M := consoleSystem) quietConsole
  have h1 := h0.snoc (show consoleSystem.step _ (.arrive 0x61#8) _ from ⟨rfl, rfl⟩)
  have h2 := h1.snoc (show consoleSystem.step _ .isr _ from ⟨rfl, rfl⟩)
  have h3 := h2.snoc (show consoleSystem.step _ .read _ from ⟨.isr, .status, rfl, rfl⟩)
  have h4 := h3.snoc (show consoleSystem.step _ .read _ from ⟨.isr, .compare, rfl, rfl⟩)
  have h5 := h4.snoc (show consoleSystem.step _ (.arrive 0x62#8) _ from ⟨rfl, rfl⟩)
  have h6 := h5.snoc (show consoleSystem.step _ .read _ from ⟨.isr, .value, rfl, rfl⟩)
  have h7 := h6.snoc (show consoleSystem.step _ .read _ from ⟨.isr, .status, rfl, rfl⟩)
  exact ⟨⟨rfl, rfl, rfl, rfl, rfl, rfl⟩, _, _, h7, rfl, rfl, rfl, rfl, by decide⟩

end MiniRiscvOs.Proofs
