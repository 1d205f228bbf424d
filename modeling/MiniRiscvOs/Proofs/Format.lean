import MiniRiscvOs.Proofs.Printf
import Mathlib.Data.List.Induction

/-!
# `MiniRiscvOs.Proofs.Format`: the format parser and the cut of the output

Here a format is any string. `sayStep` says what it means: a `%` outside of
a conversion starts one, digits and `l` belong to it, and the first other
character ends it. One of `d`, `x`, `p`, `s`, `c` takes one argument, a
second `%` prints itself, and any other character prints nothing.

* `parser_iff` compares `lib_vsnprintf` with this character by character.
  It does not leave a conversion in its default case, so `%%` and an
  unknown letter turn what follows into conversions, and it takes the
  argument of a `%c` only where it can write it.
* `libVsnprintf_truncates`: with `d`, `x`, `p`, `s` and `l` only, the
  buffer gets what fits of the output and a NUL, and `lib_vsnprintf`
  returns the length of all of it.
-/

set_option autoImplicit false

namespace MiniRiscvOs.Proofs

open MiniRiscvOs.Lib
open MiniRiscvOs.Kernel

/-! ### What a format means -/

/-- The bytes of a C string before its NUL. -/
structure FormatString where
  bytes : List Byte
  ne_nul : ∀ b ∈ bytes, b ≠ 0#8

/-- The conversion that ends in a character. -/
def convOf (ch : Byte) : Option Conv :=
  if ch = asc 'd' then some .d
  else if ch = asc 'x' then some .x
  else if ch = asc 'p' then some .p
  else if ch = asc 's' then some .s
  else if ch = asc 'c' then some .c
  else none

/-- Each conversion is the one of its letter. -/
theorem convOf_letter (k : Conv) : convOf k.letter = some k := by
  cases k <;> decide

/-- A conversion has one letter only. -/
theorem eq_letter_of_convOf {ch : Byte} {k : Conv} (h : convOf ch = some k) : ch = k.letter := by
  unfold convOf at h
  split at h
  · next hd => cases h; exact hd
  split at h
  · next hx => cases h; exact hx
  split at h
  · next hp => cases h; exact hp
  split at h
  · next hs => cases h; exact hs
  split at h
  · next hc => cases h; exact hc
  · cases h

/-- A character without a conversion is no letter of one. -/
theorem ne_letter_of_convOf {ch : Byte} (h : convOf ch = none) (k : Conv) : ch ≠ k.letter := by
  rintro rfl
  rw [convOf_letter] at h
  cases h

/-- A character that may stand inside of a conversion. -/
def isFlag (ch : Byte) : Bool := (asc '0' ≤ ch && ch ≤ asc '9') || ch == asc 'l'

/-- No flag is the letter of a conversion. -/
theorem convOf_flag {ch : Byte} (h : isFlag ch = true) : convOf ch = none := by
  cases hconv : convOf ch with
  | none => rfl
  | some k =>
      rw [eq_letter_of_convOf hconv] at h
      cases k <;> exact absurd h (by decide)

/-- What a format has said so far: whether it is inside of a conversion
and after an `l` there, which arguments it has taken, and its text. -/
structure Said where
  inside : Bool
  long : Bool
  args : List Conv
  text : List Byte

section Meaning

variable (vl : Nat → Word) (m : Mem)

instance (k : Conv) (w : Word) : Decidable (Readable m k w) :=
  inferInstanceAs (Decidable (k = .s → cString m w ≠ none))

/-- The end of a conversion. `none`: its string has no end. -/
def sayConv (sd : Said) (k : Conv) : Option Said :=
  let w := vl sd.args.length
  if Readable m k w then some ⟨false, false, sd.args ++ [k], sd.text ++ renderConv m w k⟩ else none

/-- One character of the format. -/
def sayStep (sd : Said) (ch : Byte) : Option Said :=
  if sd.inside then
    if isFlag ch then some { sd with long := sd.long || ch == asc 'l' }
    else match convOf ch with
      | some k => sayConv vl m sd k
      | none => some ⟨false, false, sd.args, if ch = asc '%' then sd.text ++ [ch] else sd.text⟩
  else if ch = asc '%' then some { sd with inside := true }
  else some { sd with text := sd.text ++ [ch] }

/-- A format from its start. -/
def say (s : List Byte) : Option Said := s.foldlM (sayStep vl m) ⟨false, false, [], []⟩

/-- Outside of a conversion `%` starts one, and any other character is text. -/
theorem sayStep_outside {sd : Said} (hin : sd.inside = false) (ch : Byte) :
    sayStep vl m sd ch
      = if ch = asc '%' then some { sd with inside := true }
        else some { sd with text := sd.text ++ [ch] } := by
  rw [sayStep, if_neg (by simp [hin])]

/-- A flag leaves the conversion open. -/
theorem sayStep_flag {sd : Said} (hin : sd.inside = true) {ch : Byte} (h : isFlag ch = true) :
    sayStep vl m sd ch = some { sd with long := sd.long || ch == asc 'l' } := by
  rw [sayStep, if_pos hin, if_pos h]

/-- A letter ends the conversion. -/
theorem sayStep_conv {sd : Said} (hin : sd.inside = true) {ch : Byte} {k : Conv}
    (hk : convOf ch = some k) : sayStep vl m sd ch = sayConv vl m sd k := by
  have hflag : ¬ isFlag ch = true := by
    intro hflag
    rw [convOf_flag hflag] at hk
    cases hk
  rw [sayStep, if_pos hin, if_neg hflag, hk]

/-- The last character comes last. -/
theorem say_concat (s : List Byte) (ch : Byte) :
    say vl m (s ++ [ch]) = (say vl m s).bind fun sd => sayStep vl m sd ch := by
  rw [say, List.foldlM_append]
  exact congrArg ((say vl m s).bind ·) (funext fun sd => Option.bind_fun_some _)

end Meaning

/-! ### What the code does -/

/-- The argument that the body of the loop takes on a character. -/
def argTaken (n : Word) (st : Fmt) (ch : Byte) : Option Conv :=
  if st.format then (convOf ch).filter fun k => k ≠ .c ∨ st.sink.out.isSome ∧ st.sink.pos < n
  else none

section Code

variable (vl : Nat → Word) (m : Mem) (n : Word)

/-- The arguments that the loop takes, in order. -/
def argsTaken : List Byte → Fmt → List Conv
  | [], _ => []
  | ch :: s, st =>
      (argTaken n st ch).toList ++
        match fmtStep vl m n st ch with
        | some st' => argsTaken s st'
        | none => []

/-- The last character takes its argument last. -/
theorem argsTaken_concat (s : List Byte) (ch : Byte) (st st' : Fmt)
    (h : fmtLoop vl m n s st = some st') :
    argsTaken vl m n (s ++ [ch]) st = argsTaken vl m n s st ++ (argTaken n st' ch).toList := by
  induction s generalizing st with
  | nil =>
      obtain rfl := Option.some.inj h
      show (argTaken n st ch).toList ++ _ = [] ++ _
      cases fmtStep vl m n st ch <;> simp [argsTaken]
  | cons c s ih =>
      obtain ⟨st₁, hstep, hrest⟩ : ∃ st₁, fmtStep vl m n st c = some st₁ ∧
          fmtLoop vl m n s st₁ = some st' := Option.bind_eq_some_iff.mp h
      rw [List.cons_append, argsTaken, argsTaken, hstep, List.append_assoc]
      exact congrArg _ (ih st₁ hrest)

/-- The loop takes the last character last. -/
theorem fmtLoop_concat (s : List Byte) (ch : Byte) (st : Fmt) :
    fmtLoop vl m n (s ++ [ch]) st = (fmtLoop vl m n s st).bind fun st' => fmtStep vl m n st' ch := by
  rw [fmtLoop_append]
  exact congrArg ((fmtLoop vl m n s st).bind ·) (funext fun st' => Option.bind_fun_some _)

/-- The state of the code that what was said asks for. -/
def Said.toFmt (sd : Said) (s : Sink 32 Byte) : Fmt :=
  ⟨sd.inside, sd.long, s.emit n sd.text, sd.args.length⟩

/-- Outside of a conversion. -/
theorem fmtStep_outside (l : Bool) (s : Sink 32 Byte) (j : Nat) (ch : Byte) :
    fmtStep vl m n ⟨false, l, s, j⟩ ch
      = if ch = asc '%' then some ⟨true, l, s, j⟩ else some ⟨false, l, s.put n ch, j⟩ := by
  rw [fmtStep, if_neg (by simp)]

/-- The default case of the switch: it stays in the conversion. -/
theorem fmtStep_default {ch : Byte} (hl : ch ≠ asc 'l') (hconv : convOf ch = none) (l : Bool)
    (s : Sink 32 Byte) (j : Nat) : fmtStep vl m n ⟨true, l, s, j⟩ ch = some ⟨true, l, s, j⟩ := by
  have hne := ne_letter_of_convOf hconv
  have hp : ch ≠ asc 'p' := hne .p
  have hx : ch ≠ asc 'x' := hne .x
  have hd : ch ≠ asc 'd' := hne .d
  have hs : ch ≠ asc 's' := hne .s
  have hc : ch ≠ asc 'c' := hne .c
  rw [fmtStep, if_pos rfl, if_neg hl, if_neg hp, if_neg hx, if_neg hd, if_neg hs, if_neg hc]

/-- A conversion other than `%c`, with its string or without. -/
theorem fmtStep_conv {k : Conv} (hk : k ≠ .c) (l : Bool) (s : Sink 32 Byte) (j : Nat) :
    fmtStep vl m n ⟨true, l, s, j⟩ k.letter
      = if Readable m k (vl j) then some (between (s.emit n (renderConv m (vl j) k)) (j + 1))
        else none := by
  rw [← fmtLoop_text]
  split
  · next hread => exact fmtLoop_conv vl m n hk hread
  · next hread => exact fmtLoop_conv_none vl m n hread

/-- `l` and the digits. -/
theorem fmtStep_flag {ch : Byte} (h : isFlag ch = true) (l : Bool) (s : Sink 32 Byte) (j : Nat) :
    fmtStep vl m n ⟨true, l, s, j⟩ ch = some ⟨true, l || ch == asc 'l', s, j⟩ := by
  by_cases hl : ch = asc 'l'
  · subst hl
    rw [fmtStep, if_pos rfl, if_pos rfl, beq_self_eq_true, Bool.or_true]
  · have hbeq : (ch == asc 'l') = false := by simpa using hl
    rw [fmtStep_default vl m n hl (convOf_flag h), hbeq, Bool.or_false]

/-- What the body of the loop puts out on a character. -/
def chText (st : Fmt) (ch : Byte) : List Byte :=
  if st.format then ((convOf ch).map (renderConv m (vl st.next))).getD []
  else if ch = asc '%' then [] else [ch]

/-- The two flags after it. `none`: it is in a string without an end. -/
def flagsAfter (st : Fmt) (ch : Byte) : Option (Bool × Bool) :=
  if st.format then
    match convOf ch with
    | some k => if Readable m k (vl st.next) then some (false, false) else none
    | none => some (true, st.longarg || ch == asc 'l')
  else some (ch == asc '%', st.longarg)

/-- All that the body of the loop does on a character. The size and the
buffer decide no more than what is kept and whether a `%c` takes its
argument. -/
theorem fmtStep_eq (st : Fmt) (ch : Byte) :
    fmtStep vl m n st ch
      = (flagsAfter vl m st ch).map fun flags =>
          ⟨flags.1, flags.2, st.sink.emit n (chText vl m st ch),
            st.next + (argTaken n st ch).toList.length⟩ := by
  -- First by the flag, then by the character.
  obtain ⟨format, l, s, j⟩ := st
  cases format with
  | false =>
      have hout : ¬ (⟨false, l, s, j⟩ : Fmt).format = true := Bool.false_ne_true
      rw [fmtStep_outside, flagsAfter, if_neg hout, chText, if_neg hout, argTaken, if_neg hout]
      by_cases hpc : ch = asc '%'
      · rw [if_pos hpc, if_pos hpc, beq_iff_eq.mpr hpc]
        rfl
      · rw [if_neg hpc, if_neg hpc, beq_eq_false_iff_ne.mpr hpc]
        rfl
  | true =>
      rw [flagsAfter, if_pos rfl, chText, if_pos rfl, argTaken, if_pos rfl]
      cases hconv : convOf ch with
      | none =>
          by_cases hl : ch = asc 'l'
          · subst hl
            rw [fmtStep_flag vl m n (by decide)]
            rfl
          · rw [fmtStep_default vl m n hl hconv, beq_eq_false_iff_ne.mpr hl, Bool.or_false]
            rfl
      | some k =>
          rw [eq_letter_of_convOf hconv]
          -- A `%c` takes its argument where there is room, and any other conversion
          -- always.
          by_cases hc : k = .c
          · subst hc
            have hread : Readable m .c (vl j) := fun h => by cases h
            rw [← fmtLoop_text, fmtLoop_char]
            simp only [if_pos hread]
            by_cases hroom : s.out.isSome ∧ s.pos < n
            · rw [if_pos hroom, Option.filter_some, if_pos (by simpa using hroom)]
              rfl
            · rw [if_neg hroom, Option.filter_some, if_neg (by simpa using hroom)]
              rfl
          · have htake : (Option.some k).filter
                (fun k => k ≠ .c ∨ s.out.isSome ∧ s.pos < n) = some k := by
              rw [Option.filter_some, if_pos (by simp [hc])]
            rw [fmtStep_conv vl m n hc, htake]
            by_cases hread : Readable m k (vl j)
            · simp only [if_pos hread]
              rfl
            · simp only [if_neg hread]
              rfl

/-- The text goes behind what is there. -/
theorem fmtStep_text {st st' : Fmt} {ch : Byte} (h : fmtStep vl m n st ch = some st') :
    st'.sink = st.sink.emit n (chText vl m st ch) := by
  rw [fmtStep_eq] at h
  obtain ⟨flags, -, rfl⟩ := Option.map_eq_some_iff.mp h
  rfl

/-- All the loop does to the sink is an `emit`. -/
theorem fmtLoop_emits (s : List Byte) :
    ∀ st st', fmtLoop vl m n s st = some st' → ∃ bs, st'.sink = st.sink.emit n bs := by
  induction s with
  | nil =>
      intro st st' h
      obtain rfl := Option.some.inj h
      exact ⟨[], rfl⟩
  | cons ch s ih =>
      intro st st' h
      obtain ⟨st₁, hstep, hrest⟩ : ∃ st₁, fmtStep vl m n st ch = some st₁ ∧
          fmtLoop vl m n s st₁ = some st' := Option.bind_eq_some_iff.mp h
      obtain ⟨bs, hbs⟩ := ih st₁ st' hrest
      exact ⟨_ ++ bs, by rw [hbs, fmtStep_text vl m n hstep, Sink.emit_append]⟩

end Code

/-! ### The parser -/

section Parser

variable (vl : Nat → Word) (m : Mem) (n : Word) (out : Option (Nat → Byte))

/-- The output at the start of a call. -/
def start : Sink 32 Byte := ⟨0#32, out⟩

/-- After `p`, the code is where the format says, and it has taken the
arguments that the format says. Both may also be in a string without an
end. -/
def AgreesAt (p : List Byte) : Prop :=
  fmtLoop vl m n p ⟨false, false, start out, 0⟩ = (say vl m p).map (·.toFmt n (start out)) ∧
    ∀ sd, say vl m p = some sd → argsTaken vl m n p ⟨false, false, start out, 0⟩ = sd.args

/-- A character inside of a conversion belongs to it or ends it with one of
`d`, `x`, `p`, `s`, `c`, and a `%c` has a place in the buffer. -/
def Understood (sd : Said) (ch : Byte) : Prop :=
  sd.inside = true → isFlag ch = true ∨
    ∃ k, convOf ch = some k ∧
      (k = .c → out.isSome = true ∧ BitVec.ofNat 32 sd.text.length < n)

/-- From the start the position is the length of the text. -/
theorem start_emit_pos (bs : List Byte) :
    ((start out).emit n bs).pos = BitVec.ofNat 32 bs.length := by
  rw [Sink.emit_pos]
  exact BitVec.zero_add _

/-- There is a buffer exactly when the call has one. -/
theorem start_emit_isSome (bs : List Byte) :
    ((start out).emit n bs).out.isSome = out.isSome :=
  Sink.emit_out_isSome n bs (start out)

variable {n out}

/-- What the code does on a `%c`. -/
theorem fmtStep_char (sd : Said) (hin : sd.inside = true) :
    fmtStep vl m n (sd.toFmt n (start out)) (asc 'c')
      = some (between ((start out).emit n (sd.text ++ renderConv m (vl sd.args.length) .c))
          (if out.isSome ∧ BitVec.ofNat 32 sd.text.length < n then sd.args.length + 1
            else sd.args.length)) := by
  have hchar := fmtLoop_char vl m n sd.long ((start out).emit n sd.text) sd.args.length
  rw [fmtLoop_text, start_emit_isSome, start_emit_pos] at hchar
  rw [Said.toFmt, hin, Sink.emit_append]
  exact hchar

/-- On a character that is understood the format says what the code does. -/
theorem sayStep_understood {sd : Said} {ch : Byte} (h : Understood n out sd ch) :
    sayStep vl m sd ch
      = (flagsAfter vl m (sd.toFmt n (start out)) ch).map fun flags =>
          ⟨flags.1, flags.2, sd.args ++ (argTaken n (sd.toFmt n (start out)) ch).toList,
            sd.text ++ chText vl m (sd.toFmt n (start out)) ch⟩ := by
  -- The two loops branch at the same places, first by the flag.
  cases hin : sd.inside with
  | false =>
      have hout : ¬ (sd.toFmt n (start out)).format = true := by simp [Said.toFmt, hin]
      rw [sayStep_outside vl m hin, flagsAfter, if_neg hout, chText, if_neg hout, argTaken,
        if_neg hout, Option.toList_none, List.append_nil]
      by_cases hpc : ch = asc '%'
      · rw [if_pos hpc, if_pos hpc, beq_iff_eq.mpr hpc, List.append_nil]
        rfl
      · rw [if_neg hpc, if_neg hpc, beq_eq_false_iff_ne.mpr hpc, ← hin]
        rfl
  | true =>
      have hformat : (sd.toFmt n (start out)).format = true := hin
      rw [flagsAfter, if_pos hformat, chText, if_pos hformat, argTaken, if_pos hformat]
      rcases h hin with hflag | ⟨k, hk, hroom⟩
      · rw [sayStep_flag vl m hin hflag, convOf_flag hflag]
        simp [Said.toFmt, hin]
      · -- A `%c` has room, so its argument is taken.
        have htake : (Option.some k).filter (fun k => k ≠ .c ∨
            (sd.toFmt n (start out)).sink.out.isSome = true ∧
              (sd.toFmt n (start out)).sink.pos < n) = some k := by
          have hplace := Decidable.not_or_of_imp hroom
          rw [← start_emit_isSome n out sd.text, ← start_emit_pos n out sd.text] at hplace
          rw [Option.filter_some]
          exact if_pos (decide_eq_true hplace)
        rw [sayStep_conv vl m hin hk, sayConv, hk, htake]
        show (if Readable m k (vl sd.args.length) then _ else none)
          = Option.map _ (if Readable m k (vl sd.args.length) then _ else none)
        by_cases hread : Readable m k (vl sd.args.length)
        · rw [if_pos hread, if_pos hread]
          rfl
        · rw [if_neg hread, if_neg hread]
          rfl

/-- On a character that is understood the code does what the format says. -/
theorem fmtStep_understood {sd : Said} {ch : Byte} (h : Understood n out sd ch) :
    fmtStep vl m n (sd.toFmt n (start out)) ch
      = (sayStep vl m sd ch).map (·.toFmt n (start out)) := by
  rw [fmtStep_eq, sayStep_understood vl m h, Option.map_map]
  congr 1
  funext flags
  simp only [Function.comp_apply, Said.toFmt, Sink.emit_append, List.length_append]

/-- Everywhere else it does something different. -/
theorem understood_of_fmtStep {sd : Said} {ch : Byte}
    (h : fmtStep vl m n (sd.toFmt n (start out)) ch
      = (sayStep vl m sd ch).map (·.toFmt n (start out))) : Understood n out sd ch := by
  intro hin
  by_cases hflag : isFlag ch = true
  · exact Or.inl hflag
  · have hl : ch ≠ asc 'l' := by
      rintro rfl
      exact hflag (by decide)
    cases hconv : convOf ch with
    | none =>
        -- The code is still inside of the conversion, the format is not.
        rw [Said.toFmt, hin, fmtStep_default vl m n hl hconv, sayStep, if_pos hin, if_neg hflag,
          hconv] at h
        have hformat := congrArg Fmt.format (Option.some.inj h)
        exact absurd hformat (by simp [Said.toFmt])
    | some k =>
        refine Or.inr ⟨k, rfl, fun hc => ?_⟩
        subst hc
        have hread : Readable m .c (vl sd.args.length) := fun h => by cases h
        rw [sayStep_conv vl m hin hconv, eq_letter_of_convOf hconv, Conv.letter,
          fmtStep_char vl m sd hin] at h
        rw [sayConv, if_pos hread] at h
        -- The format has one argument more than before.
        have hnext := congrArg Fmt.next (Option.some.inj h)
        simp only [between, Said.toFmt, List.length_append, List.length_singleton] at hnext
        by_contra hroom
        rw [if_neg hroom] at hnext
        omega

/-- On a character that is understood the code takes the argument that the
format says. -/
theorem argTaken_understood {sd sd' : Said} {ch : Byte} (h : Understood n out sd ch)
    (hsay : sayStep vl m sd ch = some sd') :
    sd'.args = sd.args ++ (argTaken n (sd.toFmt n (start out)) ch).toList := by
  rw [sayStep_understood vl m h] at hsay
  obtain ⟨flags, -, rfl⟩ := Option.map_eq_some_iff.mp hsay
  rfl

variable (n out)

/-- If all characters of a format are understood, the code is where the
format says after each of them. Induction on what it has read. -/
theorem agreesAt_of_understood {s : List Byte}
    (h : ∀ p ch, p ++ [ch] <+: s → ∀ sd, say vl m p = some sd → Understood n out sd ch)
    (p : List Byte) : p <+: s → AgreesAt vl m n out p := by
  induction p using List.reverseRecOn with
  | nil => exact fun _ => ⟨rfl, fun sd hsay => congrArg Said.args (Option.some.inj hsay)⟩
  | append_singleton p ch ih =>
      intro hp
      obtain ⟨hbefore, hargs⟩ := ih ((List.prefix_append p [ch]).trans hp)
      have hafter : fmtLoop vl m n (p ++ [ch]) ⟨false, false, start out, 0⟩
          = (say vl m (p ++ [ch])).map (·.toFmt n (start out)) := by
        rw [fmtLoop_concat, hbefore, say_concat]
        cases hsay : say vl m p with
        | none => rfl
        | some sd => exact fmtStep_understood vl m (h p ch hp sd hsay)
      refine ⟨hafter, fun sd' hsay' => ?_⟩
      rw [say_concat] at hsay'
      obtain ⟨sd, hsay, hstep⟩ := Option.bind_eq_some_iff.mp hsay'
      rw [hsay] at hbefore
      rw [argsTaken_concat vl m n p ch _ _ hbefore, hargs sd hsay,
        argTaken_understood vl m (h p ch hp sd hsay) hstep]

/-- When `lib_vsnprintf` reads a format as it is meant, from its start to
its end: exactly when each character inside of a conversion belongs to it
or ends it with one of `d`, `x`, `p`, `s`, `c`, and each `%c` has a place
in the buffer. -/
theorem parser_iff (f : FormatString) :
    (∀ p, p <+: f.bytes → AgreesAt vl m n out p) ↔
      ∀ p ch, p ++ [ch] <+: f.bytes → ∀ sd, say vl m p = some sd → Understood n out sd ch := by
  constructor
  · intro h p ch hp sd hsay
    have hbefore := (h p ((List.prefix_append p [ch]).trans hp)).1
    have hafter := (h (p ++ [ch]) hp).1
    rw [hsay] at hbefore
    rw [fmtLoop_concat, hbefore, say_concat, hsay] at hafter
    exact understood_of_fmtStep vl m hafter
  · exact fun h p => agreesAt_of_understood vl m n out h p

end Parser

/-- The format of `lib_printf("100%% done")`. -/
def percentDone : FormatString where
  bytes := "100%% done".toList.map asc
  ne_nul := by decide

/-- `100%% done` has no conversion, but `lib_vsnprintf` takes an argument
at its `d`: the second `%` and the blank leave it in the conversion. With
a zero there it writes `1000one`. -/
theorem percentDone_misread :
    (say (fun _ => 0#32) (fun _ => 0#8) percentDone.bytes).map (fun sd => (sd.args, sd.text))
      = some ([], "100% done".toList.map asc) ∧
    argsTaken (fun _ => 0#32) (fun _ => 0#8) 64#32 percentDone.bytes
      ⟨false, false, start (some fun _ => 0#8), 0⟩ = [.d] ∧
    ((libVsnprintf (fun _ => 0#32) (fun _ => 0#8) 64#32 (some fun _ => 0#8)
      percentDone.bytes).bind (·.sink.out)).map (fun o => (List.range 8).map o)
      = some ("1000one\x00".toList.map asc) ∧
    ¬ ∀ p, p <+: percentDone.bytes →
      AgreesAt (fun _ => 0#32) (fun _ => 0#8) 64#32 (some fun _ => 0#8) p := by
  have hargs : argsTaken (fun _ => 0#32) (fun _ => 0#8) 64#32 percentDone.bytes
      ⟨false, false, start (some fun _ => 0#8), 0⟩ = [.d] := by decide
  refine ⟨by decide, hargs, by decide, fun h => ?_⟩
  obtain ⟨-, hagree⟩ := h percentDone.bytes (List.prefix_refl _)
  have hsay : ∃ sd, say (fun _ => 0#32) (fun _ => 0#8) percentDone.bytes = some sd ∧
      sd.args = [] := ⟨_, rfl, by decide⟩
  obtain ⟨sd, hsome, hnil⟩ := hsay
  rw [hagree sd hsome, hnil] at hargs
  cases hargs

/-! ### The cut -/

/-- The rest of a format has no conversion but `d`, `x`, `p` and `s`, with
any number of `l`, inside of one or outside. -/
def plainFrom : Bool → List Byte → Bool
  | _, [] => true
  | false, ch :: s => plainFrom (ch == asc '%') s
  | true, ch :: s =>
      if ch == asc 'l' then plainFrom true s
      else (convOf ch).any (fun k => k ≠ .c) && plainFrom false s

/-- A call of `lib_vsnprintf` with the conversions `d`, `x`, `p` and `s`
and arguments that match them. Its output has less than `2 ^ 31`
characters. -/
structure PlainCall where
  vl : Nat → Word
  mem : Mem
  format : FormatString
  plain : plainFrom false format.bytes = true
  said : Said
  matched : say vl mem format.bytes = some said
  short : said.text.length < 2 ^ 31

/-- A character of a plain format inside of a conversion. -/
theorem plainFrom_inside {ch : Byte} {s : List Byte} (h : plainFrom true (ch :: s) = true) :
    (ch = asc 'l' ∧ plainFrom true s = true) ∨
      ∃ k, convOf ch = some k ∧ k ≠ .c ∧ plainFrom false s = true := by
  rw [plainFrom] at h
  split at h
  · next hl => exact Or.inl ⟨beq_iff_eq.mp hl, h⟩
  · obtain ⟨hconv, hrest⟩ := Bool.and_eq_true_iff.mp h
    obtain ⟨k, hk, hc⟩ := (Option.any_eq_true _ _).mp hconv
    exact Or.inr ⟨k, hk, of_decide_eq_true hc, hrest⟩

/-- The first character of a plain format is understood. -/
theorem understood_of_plainFrom (n : Word) (out : Option (Nat → Byte)) {sd : Said} {ch : Byte}
    {s : List Byte} (h : plainFrom sd.inside (ch :: s) = true) : Understood n out sd ch := by
  intro hin
  rw [hin] at h
  rcases plainFrom_inside h with ⟨rfl, -⟩ | ⟨k, hk, hc, -⟩
  · exact Or.inl (by decide)
  · exact Or.inr ⟨k, hk, fun h => absurd h hc⟩

/-- What is left of a plain format after a character is plain. -/
theorem plainFrom_sayStep {vl : Nat → Word} {m : Mem} {sd sd' : Said} {ch : Byte} {s : List Byte}
    (hplain : plainFrom sd.inside (ch :: s) = true) (hstep : sayStep vl m sd ch = some sd') :
    plainFrom sd'.inside s = true := by
  cases hin : sd.inside with
  | false =>
      -- Outside of a conversion only `%` changes the mode.
      rw [hin] at hplain
      have hrest : plainFrom (ch == asc '%') s = true := hplain
      rw [sayStep_outside vl m hin] at hstep
      split at hstep
      · next hpc =>
          cases hstep
          rwa [hpc, beq_self_eq_true] at hrest
      · next hpc =>
          cases hstep
          rw [beq_eq_false_iff_ne.mpr hpc] at hrest
          rwa [hin]
  | true =>
      rw [hin] at hplain
      rcases plainFrom_inside hplain with ⟨hl, hrest⟩ | ⟨k, hk, -, hrest⟩
      · -- Inside of one a flag leaves it open, and a letter ends it.
        have hflag : isFlag ch = true := by
          rw [hl]
          decide
        rw [sayStep_flag vl m hin hflag] at hstep
        cases hstep
        rwa [hin]
      · rw [sayStep_conv vl m hin hk, sayConv] at hstep
        split at hstep <;> cases hstep
        exact hrest

/-- What is left of a plain format after a prefix is plain. -/
theorem plainFrom_say {vl : Nat → Word} {m : Mem} (p : List Byte) :
    ∀ s sd, plainFrom false (p ++ s) = true → say vl m p = some sd →
      plainFrom sd.inside s = true := by
  induction p using List.reverseRecOn with
  | nil =>
      intro s sd hplain hsay
      obtain rfl := Option.some.inj hsay
      exact hplain
  | append_singleton p ch ih =>
      intro s sd hplain hsay
      rw [say_concat] at hsay
      obtain ⟨sd₀, hsay₀, hstep⟩ := Option.bind_eq_some_iff.mp hsay
      rw [List.append_assoc] at hplain
      exact plainFrom_sayStep (ih (ch :: s) sd₀ hplain hsay₀) hstep

/-- What the loop does on a plain call. -/
theorem PlainCall.loop_eq (c : PlainCall) (n : Word) (out : Option (Nat → Byte)) :
    fmtLoop c.vl c.mem n c.format.bytes ⟨false, false, start out, 0⟩
      = some (c.said.toFmt n (start out)) := by
  have hagree := agreesAt_of_understood c.vl c.mem n out
    (fun p ch ⟨s, hs⟩ sd hsay => understood_of_plainFrom n out
      (plainFrom_say p (ch :: s) sd (by rw [List.append_cons, hs]; exact c.plain) hsay))
    c.format.bytes (List.prefix_refl _)
  have hloop := hagree.1
  rwa [c.matched] at hloop

/-- The buffer `o` that `out` has become: the first characters of `text`
that fit in `n` together with a NUL, and that NUL. -/
structure Truncated (text : List Byte) (n : Nat) (out o : Nat → Byte) : Prop where
  beyond : ∀ i, n ≤ i → o i = out i
  within : ∀ i, i < min text.length (n - 1) → text[i]? = some (o i)
  ended : 0 < n → o (min text.length (n - 1)) = 0#8

/-- A buffer after a text and its NUL. -/
theorem truncated_close (text : List Byte) (n : Word) (out : Nat → Byte)
    (hshort : text.length < 2 ^ 32) :
    ∃ o, (((start (some out)).emit n text).close n 0#8).out = some o ∧
      Truncated text n.toNat out o := by
  have hzero : (0#32 : Word).toNat = 0 := rfl
  have hpos : (0#32 + BitVec.ofNat 32 text.length : Word).toNat = text.length := by
    rw [BitVec.zero_add, BitVec.toNat_ofNat]
    exact Nat.mod_eq_of_lt hshort
  have hfit : (start (some out)).pos.toNat + text.length < 2 ^ 32 := by
    show (0#32 : Word).toNat + text.length < 2 ^ 32
    omega
  rw [Sink.emit_eq n text (start (some out)) hfit]
  -- All that `writeAt` does is below `n` and inside of the text.
  have hinside : ∀ i, i < text.length → i < n.toNat →
      text[i]? = some (writeAt n.toNat out 0 text i) := by
    intro i hi hn
    have hat := writeAt_inside out (p := 0) hi (n := n.toNat) (by omega)
    rw [Nat.zero_add] at hat
    rw [hat, List.getElem?_eq_getElem hi]
  have hbeyond : ∀ i, n.toNat ≤ i → writeAt n.toNat out 0 text i = out i := by
    intro i hi
    rw [writeAt, if_neg (by omega)]
  -- The NUL goes behind the text or takes the place of the last byte that fits.
  have hnul : 0 < n.toNat → ∀ k, k = min text.length (n.toNat - 1) →
      Truncated text n.toNat out (Function.update (writeAt n.toNat out 0 text) k 0#8) := by
    rintro hn k rfl
    constructor
    · intro i hi
      rw [Function.update_of_ne (by omega), hbeyond i hi]
    · intro i hi
      rw [Function.update_of_ne (by omega), hinside i (by omega) (by omega)]
    · exact fun _ => Function.update_self ..
  refine ⟨_, rfl, ?_⟩
  show Truncated text n.toNat out (if (0#32 + BitVec.ofNat 32 text.length : Word) < n then
    Function.update (writeAt n.toNat out 0 text) (0#32 + BitVec.ofNat 32 text.length : Word).toNat
      0#8
    else if n ≠ 0#32 then Function.update (writeAt n.toNat out 0 text) (n - 1#32).toNat 0#8
    else writeAt n.toNat out 0 text)
  have hroom : (0#32 + BitVec.ofNat 32 text.length : Word) < n ↔ text.length < n.toNat := by
    rw [BitVec.lt_def, hpos]
  by_cases hlt : text.length < n.toNat
  · rw [if_pos (hroom.mpr hlt), hpos]
    exact hnul (by omega) text.length (by omega)
  · rw [if_neg (mt hroom.mp hlt)]
    by_cases hn : n = 0#32
    · rw [if_neg (by simpa using hn)]
      have hn0 : n.toNat = 0 := by rw [hn, hzero]
      exact ⟨hbeyond, fun i hi => by omega, fun h => by omega⟩
    · have hnpos : 0 < n.toNat := by
        have hne : n.toNat ≠ (0#32 : Word).toNat := fun h => hn (BitVec.eq_of_toNat_eq h)
        omega
      have hlast : (n - 1#32).toNat = n.toNat - 1 := by bv_omega
      rw [if_pos hn, hlast]
      exact hnul hnpos (n.toNat - 1) (by omega)

/-- `lib_vsnprintf` cuts its output safely: it returns the length of all of
it, writes nothing behind the buffer, and leaves there what fits and a NUL.
With the size 0 it writes nothing. -/
theorem libVsnprintf_truncates (c : PlainCall) (n : Word) (out : Nat → Byte) :
    ∃ st o, libVsnprintf c.vl c.mem n (some out) c.format.bytes = some st ∧
      st.sink.pos.toNat = c.said.text.length ∧ st.sink.out = some o ∧
      Truncated c.said.text n.toNat out o ∧ (n = 0#32 → o = out) := by
  have hshort := c.short
  obtain ⟨o, hout, htrunc⟩ := truncated_close c.said.text n out (by omega)
  refine ⟨_, o, congrArg (Option.map _) (c.loop_eq n (some out)), ?_, hout, htrunc, ?_⟩
  · show ((start (some out)).emit n c.said.text).pos.toNat = _
    rw [start_emit_pos, BitVec.toNat_ofNat]
    exact Nat.mod_eq_of_lt (by omega)
  · intro hn
    have hzero : n.toNat = 0 := by rw [hn]; rfl
    funext i
    exact htrunc.beyond i (by omega)

/-- `"%ld and %s"` with the number -17 and the string `"tail"` at address 64. -/
def tailCall : PlainCall where
  vl i := if i = 0 then BitVec.ofInt 32 (-17) else 64#32
  mem := fun x => ("tail".toList.map asc).getD (x - 64#32).toNat 0#8
  format := ⟨"%ld and %s".toList.map asc, by decide⟩
  plain := by decide
  said := ⟨false, false, [.d, .s], "-17 and tail".toList.map asc⟩
  matched := rfl
  short := by decide

/-- Nine bytes hold the first eight characters and a NUL. The string is cut,
and the twelve of the whole text are returned. -/
theorem tailCall_truncates (out : Nat → Byte) :
    ∃ st o, libVsnprintf tailCall.vl tailCall.mem 9#32 (some out) tailCall.format.bytes = some st ∧
      st.sink.pos.toNat = 12 ∧ st.sink.out = some o ∧
      Truncated ("-17 and tail".toList.map asc) 9 out o ∧ (9#32 = 0#32 → o = out) :=
  libVsnprintf_truncates tailCall 9#32 out

end MiniRiscvOs.Proofs
