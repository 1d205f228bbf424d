import MiniRiscvOs.Proofs.Format
import Mathlib.Data.Nat.Digits.Lemmas

/-!
# `MiniRiscvOs.Proofs.Decimal`: what `%d` prints

`IsNumeral v bs` says that `bs` is the decimal numeral of `v`: a `-`
exactly for a negative number, then digits without a leading zero that is
not needed, which read back as `v`.

* `decDigits_eq`: the loop that counts the digits and the loop that writes
  them agree, and the digits are those of the number. Induction on the
  fuel, a tenth of the number at a time.
* `printDec_iff`: `%d` prints the numeral of each number but `-2 ^ 31`,
  whose negation is itself. Its remainders are negative.
-/

set_option autoImplicit false

namespace MiniRiscvOs.Proofs

open MiniRiscvOs.Lib
open MiniRiscvOs.Kernel

/-! ### Numerals -/

/-- The number that a list of digits stands for. -/
def readDigits (ds : List Byte) : Nat :=
  ds.foldl (fun v d => 10 * v + (d.toNat - (asc '0').toNat)) 0

/-- The decimal numeral of `v`. -/
def IsNumeral (v : Int) (bs : List Byte) : Prop :=
  ∃ ds, bs = (if v < 0 then asc '-' :: ds else ds) ∧
    ds ≠ [] ∧ (∀ d ∈ ds, asc '0' ≤ d ∧ d ≤ asc '9') ∧
    (ds.head? = some (asc '0') → ds = [asc '0']) ∧
    (if v < 0 then -(readDigits ds : Int) else readDigits ds) = v

/-- `bs` was written between the positions of `s` and of `s'`, and nothing
else. -/
def Appended (bs : List Byte) (s s' : Sink 32 Byte) : Prop :=
  s'.pos.toNat = s.pos.toNat + bs.length ∧
    ∃ o o', s.out = some o ∧ s'.out = some o' ∧
      (∀ i, i < bs.length → bs[i]? = some (o' (s.pos.toNat + i))) ∧
      ∀ i, i < s.pos.toNat ∨ s.pos.toNat + bs.length ≤ i → o' i = o i

/-- What a call appended is determined by the two sinks. -/
theorem appended_unique {as bs : List Byte} {s s' : Sink 32 Byte} (ha : Appended as s s')
    (hb : Appended bs s s') : as = bs := by
  obtain ⟨hpos, -, o, -, ho, has, -⟩ := ha
  obtain ⟨hpos', -, o', -, ho', hbs, -⟩ := hb
  have hlen : as.length = bs.length := by omega
  have hsame : o = o' := by
    rw [ho] at ho'
    exact Option.some.inj ho'
  apply List.ext_getElem?
  intro i
  by_cases hi : i < as.length
  · rw [has i hi, hbs i (hlen ▸ hi), hsame]
  · rw [List.getElem?_eq_none (by omega), List.getElem?_eq_none (by omega)]

/-- An `emit` with room for all of it appends it. -/
theorem appended_emit {n : Word} (bs : List Byte) {s : Sink 32 Byte} {o : Nat → Byte}
    (hout : s.out = some o) (hlen : s.pos.toNat + bs.length < 2 ^ 32)
    (hroom : s.pos.toNat + bs.length ≤ n.toNat) : Appended bs s (s.emit n bs) := by
  rw [Sink.emit_eq n bs s hlen]
  refine ⟨?_, o, writeAt n.toNat o s.pos.toNat bs, hout, ?_, ?_, ?_⟩
  · show (s.pos + BitVec.ofNat 32 bs.length).toNat = _
    bv_omega
  · show s.out.map _ = _
    rw [hout]
    rfl
  · intro i hi
    rw [writeAt_inside o hi (by omega), List.getElem?_eq_getElem hi]
  · rintro i (hlow | hhigh)
    · rw [writeAt, if_neg (by omega)]
    · rw [writeAt]
      split
      · rw [List.getD_eq_getElem?_getD, List.getElem?_eq_none (by omega), Option.getD_none]
      · rfl

/-! ### The digits of a number -/

/-- The decimal digits of `k` from the last to the first, `0` for zero. -/
def lowDigits (k : Nat) : List Nat := if k = 0 then [0] else Nat.digits 10 k

/-- The character of a digit. -/
def digitByte (d : Nat) : Byte := asc '0' + BitVec.ofNat 8 d

/-- A number below ten is its own digit. -/
theorem lowDigits_lt {k : Nat} (hk : k < 10) : lowDigits k = [k] := by
  unfold lowDigits
  split
  · next h => rw [h]
  · next h => exact Nat.digits_of_lt 10 k h hk

/-- The lowest digit, and then those of the quotient. -/
theorem lowDigits_step {k : Nat} (hk : 10 ≤ k) : lowDigits k = k % 10 :: lowDigits (k / 10) := by
  have hq : k / 10 ≠ 0 := by omega
  rw [lowDigits, if_neg (by omega), lowDigits, if_neg hq]
  exact Nat.digits_def' (by omega) (by omega)

/-- On a word without the sign bit the signed quotient is the unsigned one. -/
theorem toNat_sdiv_ten {num : Word} (h : num.toNat < 2 ^ 31) :
    (num.sdiv 10#32).toNat = num.toNat / 10 := by
  have hmsb : num.msb = false := BitVec.msb_eq_false_iff_two_mul_lt.mpr (by omega)
  have hten : (10#32 : Word).msb = false := rfl
  rw [BitVec.sdiv_eq, hmsb, hten]
  exact BitVec.toNat_udiv

/-- The same for the remainder. -/
theorem toNat_srem_ten {num : Word} (h : num.toNat < 2 ^ 31) :
    (num.srem 10#32).toNat = num.toNat % 10 := by
  have hmsb : num.msb = false := BitVec.msb_eq_false_iff_two_mul_lt.mpr (by omega)
  have hten : (10#32 : Word).msb = false := rfl
  rw [BitVec.srem_eq, hmsb, hten]
  exact BitVec.toNat_umod

/-- The character of the lowest digit. -/
theorem decDigit_eq {num : Word} (h : num.toNat < 2 ^ 31) :
    decDigit num = digitByte (num.toNat % 10) := by
  have hrem := toNat_srem_ten h
  rw [decDigit, digitByte]
  congr 1
  apply BitVec.eq_of_toNat_eq
  rw [BitVec.toNat_setWidth, hrem, BitVec.toNat_ofNat]

/-- The two division loops of `case 'd'` agree on the digits of a number
that is not negative. -/
theorem decDigits_eq (fuel : Nat) :
    ∀ num : Word, num.toNat < 2 ^ 31 → num.toNat < 10 ^ (fuel + 1) →
      decDigits (digitCount fuel num) num = (lowDigits num.toNat).map digitByte := by
  induction fuel with
  | zero =>
      intro num hpos hlt
      -- Without fuel both loops are good for one digit.
      have hlt : num.toNat < 10 := by simpa using hlt
      rw [lowDigits_lt hlt, digitCount, decDigits, decDigits, decDigit_eq hpos,
        Nat.mod_eq_of_lt hlt]
      rfl
  | succ fuel ih =>
      intro num hpos hlt
      have hq := toNat_sdiv_ten hpos
      rw [digitCount]
      by_cases hten : num.toNat < 10
      · have hzero : num.sdiv 10#32 = 0#32 := by
          apply BitVec.eq_of_toNat_eq
          rw [hq, Nat.div_eq_of_lt hten]
          rfl
        rw [if_neg (by simpa using hzero), lowDigits_lt hten, decDigits, decDigits,
          decDigit_eq hpos, Nat.mod_eq_of_lt hten]
        rfl
      · -- The quotient has one digit less, for both loops.
        have hnz : num.sdiv 10#32 ≠ 0#32 := by
          intro h
          have hzero := congrArg BitVec.toNat h
          rw [hq] at hzero
          have hzero' : num.toNat / 10 = 0 := hzero
          omega
        have hrest := ih (num.sdiv 10#32) (by omega) (by rw [hq]; omega)
        rw [if_pos hnz, lowDigits_step (by omega), decDigits, hrest, hq, decDigit_eq hpos]
        rfl

/-- A digit's character is so far from `'0'`. -/
theorem toNat_digitByte {d : Nat} (hd : d < 10) : (digitByte d).toNat = (asc '0').toNat + d := by
  have h0 : asc '0' = 48#8 := rfl
  rw [digitByte, h0]
  bv_omega

/-- Every digit is below ten. -/
theorem lowDigits_lt_ten (k : Nat) : ∀ d ∈ lowDigits k, d < 10 := by
  intro d hd
  unfold lowDigits at hd
  split at hd
  · have hzero : d = 0 := by simpa using hd
    omega
  · exact Nat.digits_lt_base (by omega) hd

/-- Reading digits back, most significant digit first. -/
theorem readDigits_reverse (ds : List Nat) (h : ∀ d ∈ ds, d < 10) :
    readDigits (ds.map digitByte).reverse = Nat.ofDigits 10 ds := by
  induction ds with
  | nil => rfl
  | cons d ds ih =>
      have hd := toNat_digitByte (h d List.mem_cons_self)
      have hrest := ih fun e he => h e (List.mem_cons_of_mem d he)
      rw [List.map_cons, List.reverse_cons, readDigits, List.foldl_append]
      show 10 * readDigits (ds.map digitByte).reverse + ((digitByte d).toNat - _) = _
      rw [hrest, hd, Nat.add_sub_cancel_left, Nat.ofDigits_cons, Nat.add_comm]

/-- The digits make up the number. -/
theorem ofDigits_lowDigits (k : Nat) : Nat.ofDigits 10 (lowDigits k) = k := by
  unfold lowDigits
  split
  · next h => rw [h]; rfl
  · exact Nat.ofDigits_digits 10 k

/-- The digits of `k`, most significant digit first, are its numeral. -/
theorem digits_numeral (k : Nat) :
    let ds := ((lowDigits k).map digitByte).reverse
    ds ≠ [] ∧ (∀ d ∈ ds, asc '0' ≤ d ∧ d ≤ asc '9') ∧
      (ds.head? = some (asc '0') → ds = [asc '0']) ∧ readDigits ds = k := by
  -- The digits are those of `Nat.digits`, which come least significant first.
  have hten := lowDigits_lt_ten k
  have h0 : asc '0' = 48#8 := rfl
  have h9 : asc '9' = 57#8 := rfl
  refine ⟨?_, ?_, ?_, ?_⟩
  · have hne : lowDigits k ≠ [] := by
      unfold lowDigits
      split
      · exact List.cons_ne_nil _ _
      · next h => exact Nat.digits_ne_nil_iff_ne_zero.mpr h
    simpa using hne
  · intro d hd
    obtain ⟨e, he, rfl⟩ := List.mem_map.mp (List.mem_reverse.mp hd)
    have hbyte := toNat_digitByte (hten e he)
    have hlt := hten e he
    rw [h0] at hbyte
    have h48 : (48#8 : Byte).toNat = 48 := rfl
    constructor
    · rw [h0, BitVec.le_def]
      omega
    · have h57 : (57#8 : Byte).toNat = 57 := rfl
      rw [h9, BitVec.le_def]
      omega
  · intro hhead
    by_cases hk : k = 0
    · rw [hk]
      rfl
    · -- The first digit of a positive number is not zero.
      exfalso
      have hlow : lowDigits k = Nat.digits 10 k := if_neg hk
      have hnil : Nat.digits 10 k ≠ [] := Nat.digits_ne_nil_iff_ne_zero.mpr hk
      have hlast := Nat.getLast_digit_ne_zero 10 hk
      rw [hlow, List.head?_reverse, List.getLast?_map, List.getLast?_eq_some_getLast hnil] at hhead
      have hbyte : digitByte ((Nat.digits 10 k).getLast hnil) = asc '0' := Option.some.inj hhead
      have hnat := congrArg BitVec.toNat hbyte
      rw [toNat_digitByte (Nat.digits_lt_base (by omega) (List.getLast_mem hnil))] at hnat
      omega
  · rw [readDigits_reverse _ hten, ofDigits_lowDigits]

/-! ### `%d` -/

/-- The one number whose negation is itself. -/
def intMin : Word := 0x80000000#32

/-- The numeral of `v`, from the digits of its absolute value. -/
theorem isNumeral_of_natAbs {v : Int} {bs : List Byte}
    (h : bs = (if v < 0 then asc '-' :: ((lowDigits v.natAbs).map digitByte).reverse
      else ((lowDigits v.natAbs).map digitByte).reverse)) : IsNumeral v bs := by
  obtain ⟨hne, hdigits, hlead, hread⟩ := digits_numeral v.natAbs
  refine ⟨_, h, hne, hdigits, hlead, ?_⟩
  rw [hread]
  split <;> omega

/-- All but the least integer come out as a numeral of theirs. -/
theorem renderDec_isNumeral {v : Word} (hv : v ≠ intMin) : IsNumeral v.toInt (renderDec v) := by
  have hmin : v.toNat ≠ 2 ^ 31 := fun h => hv (BitVec.eq_of_toNat_eq h)
  have hcond := BitVec.toInt_eq_toNat_cond v
  have hmax := v.isLt
  apply isNumeral_of_natAbs
  rw [renderDec]
  by_cases hneg : v.toInt < 0
  · -- The negation has the absolute value, and is not negative.
    have hslt : v.slt 0#32 = true := by
      rw [BitVec.slt_zero_eq_msb, BitVec.msb_eq_toInt]
      exact decide_eq_true hneg
    have habs : (-v).toNat = v.toInt.natAbs := by
      rw [BitVec.toNat_neg]
      split at hcond <;> omega
    have hlt : (-v).toNat < 2 ^ 31 := by
      rw [habs]
      split at hcond <;> omega
    rw [hslt, if_pos rfl, if_pos hneg, decDigits_eq 32 (-v) hlt (by omega), habs]
  · have hslt : v.slt 0#32 = false := by
      rw [BitVec.slt_zero_eq_msb, BitVec.msb_eq_toInt]
      exact decide_eq_false hneg
    have habs : v.toNat = v.toInt.natAbs := by
      split at hcond <;> omega
    have hlt : v.toNat < 2 ^ 31 := by
      split at hcond <;> omega
    rw [hslt, if_neg (by simp), if_neg hneg, decDigits_eq 32 v hlt (by omega), habs]

/-- What `%d` prints for `-2 ^ 31`: each of its digits is below `0`. -/
theorem renderDec_intMin : renderDec intMin = "-./,),(-*,(".toList.map asc := by
  decide

/-- The least integer does not: its negation is itself. -/
theorem not_isNumeral_intMin : ¬ IsNumeral intMin.toInt (renderDec intMin) := by
  rintro ⟨ds, hds, -, hdigits, -⟩
  have hneg : intMin.toInt < 0 := by decide
  rw [if_pos hneg, renderDec_intMin] at hds
  have hmem : asc '.' ∈ ds := by
    rw [← (List.cons.inj hds).2]
    decide
  exact absurd (hdigits _ hmem).1 (by decide)

/-- `%d` or `%ld`. -/
def decText (long : Bool) : List Byte := (Item.conv long .d).text

section PrintDec

variable (vl : Nat → Word) (m : Mem) (n : Word)

/-- `%d` after any other text. -/
theorem fmtLoop_dec {st : Fmt} (hst : st.format = false) (long : Bool) :
    fmtLoop vl m n (decText long) st
      = some (between (st.sink.emit n (renderDec (vl st.next))) (st.next + 1)) := by
  have hread : Readable m .d (vl st.next) := fun h => by cases h
  obtain ⟨format, longarg, sink, next⟩ := st
  have hformat : format = false := hst
  subst hformat
  -- What the letter does, whether `l` stands before it or not.
  have hconv : ∀ l, fmtStep vl m n ⟨true, l, sink, next⟩ Conv.d.letter
      = some (between (sink.emit n (renderDec (vl next))) (next + 1)) := by
    intro l
    rw [fmtStep_conv vl m n (by decide), if_pos hread, renderConv]
  have hstart : fmtStep vl m n ⟨false, longarg, sink, next⟩ (asc '%')
      = some ⟨true, longarg, sink, next⟩ := by
    rw [fmtStep_outside, if_pos rfl]
  have hcons : ∀ ch s st, fmtLoop vl m n (ch :: s) st
      = (fmtStep vl m n st ch).bind (fmtLoop vl m n s) := fun _ _ _ => List.foldlM_cons
  cases long with
  | false =>
      rw [decText, Item.text, hcons, hstart, Option.bind_some, hcons, hconv]
      rfl
  | true =>
      rw [decText, Item.text, hcons, hstart, Option.bind_some, hcons,
        fmtStep_flag vl m n (by decide), Option.bind_some, hcons, hconv]
      rfl

/-- There is always a digit. -/
theorem digitCount_pos (fuel : Nat) (num : Word) : 0 < digitCount fuel num := by
  cases fuel with
  | zero => exact Nat.one_pos
  | succ fuel =>
      rw [digitCount]
      split
      · exact Nat.succ_pos _
      · exact Nat.one_pos

/-- The text is never empty. -/
theorem length_renderDec_pos (v : Word) : 0 < (renderDec v).length := by
  rw [renderDec]
  split
  · exact Nat.succ_pos _
  · rw [List.length_reverse, length_decDigits]
    exact digitCount_pos 32 v

/-- When `%d` and `%ld` print the numeral of their argument, at any place
of a format and in a buffer that has room for what they print: exactly
when the argument is not `-2 ^ 31`. -/
theorem printDec_iff (out : Nat → Byte) (pre : List Byte) (long : Bool) (st : Fmt)
    (hpre : fmtLoop vl m n pre ⟨false, false, start (some out), 0⟩ = some st)
    (hst : st.format = false) :
    ∃ st', fmtLoop vl m n (pre ++ decText long) ⟨false, false, start (some out), 0⟩ = some st' ∧
      (st.sink.pos.toNat ≤ st'.sink.pos.toNat → st'.sink.pos.toNat < n.toNat →
        ((∃ bs, IsNumeral (vl st.next).toInt bs ∧ Appended bs st.sink st'.sink) ↔
          vl st.next ≠ intMin)) := by
  refine ⟨_, by rw [fmtLoop_append, hpre]; exact fmtLoop_dec vl m n hst long, ?_⟩
  intro hmoved hroom
  have hpos := length_renderDec_pos (vl st.next)
  have hle := length_renderDec_le (vl st.next)
  -- The position has not wrapped, so the buffer has room for all of it.
  have hsum : (st.sink.pos + BitVec.ofNat 32 (renderDec (vl st.next)).length).toNat
      = st.sink.pos.toNat + (renderDec (vl st.next)).length := by
    change st.sink.pos.toNat ≤ (st.sink.emit n (renderDec (vl st.next))).pos.toNat at hmoved
    rw [Sink.emit_pos] at hmoved
    bv_omega
  change (st.sink.emit n (renderDec (vl st.next))).pos.toNat < n.toNat at hroom
  rw [Sink.emit_pos, hsum] at hroom
  have hmax := n.isLt
  have hsome : st.sink.out.isSome = true := by
    obtain ⟨bs, hbs⟩ := fmtLoop_emits vl m n pre _ st hpre
    rw [hbs]
    exact start_emit_isSome n (some out) bs
  obtain ⟨o, ho⟩ := Option.isSome_iff_exists.mp hsome
  have happ := appended_emit (renderDec (vl st.next)) ho (n := n) (by omega) (by omega)
  constructor
  · rintro ⟨bs, hnum, hbs⟩ hmin
    rw [appended_unique hbs happ, hmin] at hnum
    exact not_isNumeral_intMin hnum
  · intro hv
    exact ⟨_, renderDec_isNumeral hv, happ⟩

end PrintDec

/-- `lib_printf("n=%d", -42)`. -/
theorem printDec_iff_minus42 :
    ∃ st', fmtLoop (fun _ => -42#32) (fun _ => 0#8) 16#32
        ("n=".toList.map asc ++ decText false) ⟨false, false, start (some fun _ => 0#8), 0⟩
        = some st' ∧
      (2 ≤ st'.sink.pos.toNat → st'.sink.pos.toNat < 16 →
        ((∃ bs, IsNumeral (-42) bs ∧ Appended bs
          ((start (some fun _ => 0#8)).emit 16#32 ("n=".toList.map asc)) st'.sink) ↔
          -42#32 ≠ intMin)) :=
  printDec_iff (fun _ => -42#32) (fun _ => 0#8) 16#32 (fun _ => 0#8) ("n=".toList.map asc) false
    ⟨false, false, (start (some fun _ => 0#8)).emit 16#32 ("n=".toList.map asc), 0⟩ rfl rfl

/-- `lib_printf("%d", -2147483648)` prints a `-` and ten characters that
are no digits. -/
theorem printDec_intMin :
    ∃ st', fmtLoop (fun _ => intMin) (fun _ => 0#8) 16#32 (decText false)
        ⟨false, false, start (some fun _ => 0#8), 0⟩ = some st' ∧
      Appended ("-./,),(-*,(".toList.map asc) (start (some fun _ => 0#8)) st'.sink ∧
      ¬ ∃ bs, IsNumeral (-2147483648) bs ∧
        Appended bs (start (some fun _ => 0#8)) st'.sink := by
  have happ : Appended (renderDec intMin) (start (some fun _ => 0#8))
      ((start (some fun _ => 0#8)).emit 16#32 (renderDec intMin)) :=
    appended_emit (renderDec intMin) rfl (by decide) (by decide)
  refine ⟨_, fmtLoop_dec (fun _ => intMin) (fun _ => 0#8) 16#32 rfl false, ?_, ?_⟩
  · rw [← renderDec_intMin]
    exact happ
  · rintro ⟨bs, hnum, hbs⟩
    rw [appended_unique hbs happ] at hnum
    exact not_isNumeral_intMin hnum

end MiniRiscvOs.Proofs
