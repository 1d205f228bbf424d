import MiniRiscvOs.Proofs.Decimal

/-!
# `MiniRiscvOs.Proofs.PrintfRoundtrip`: reading back what `lib_printf` prints

`scan` reads a text by a format and answers the arguments: eight digits for
`%x`, the same after `0x` for `%p`, and for `%d` a sign and as many digits as
there are. `printf_roundtrip` says that it gives back the arguments of a call
from the text that the call has sent, where no other digit follows a `%d`
(`Separable`). So the text of such a format determines the numbers in it.

* `readHex_renderHex`: the digits of `case 'x'` are those of the number, most
  significant digit first. Induction on the number of digits.
* `scanDec_renderDec`: the digits of `%d` end where they should.
-/

set_option autoImplicit false

namespace MiniRiscvOs.Proofs

open MiniRiscvOs.Lib
open MiniRiscvOs.Kernel

/-! ### The reader -/

/-- The byte is a decimal digit. -/
def isDecimal (b : Byte) : Bool := asc '0' ≤ b && b ≤ asc '9'

/-- The value of a hexadecimal digit in lower case. -/
def hexValue (b : Byte) : Option Nat :=
  if isDecimal b then some (b.toNat - (asc '0').toNat)
  else if asc 'a' ≤ b ∧ b ≤ asc 'f' then some (b.toNat - (asc 'a').toNat + 10)
  else none

/-- Hexadecimal digits, most significant digit first, after those of `v`. -/
def readHex (v : Nat) (bs : List Byte) : Option Nat :=
  bs.foldlM (fun v b => (hexValue b).map (16 * v + ·)) v

/-- A number of eight hexadecimal digits, and the rest of the text. -/
def scanHex (bs : List Byte) : Option (Word × List Byte) :=
  if bs.length < 8 then none
  else (readHex 0 (bs.take 8)).map fun v => (BitVec.ofNat 32 v, bs.drop 8)

/-- A decimal number with its sign, and the rest of the text. -/
def scanDec (bs : List Byte) : Option (Word × List Byte) :=
  let neg := bs.head? = some (asc '-')
  let bs := if neg then bs.tail else bs
  let ds := bs.takeWhile isDecimal
  if ds = [] then none
  else some (BitVec.ofInt 32 (if neg then -(readDigits ds : Int) else readDigits ds),
    bs.dropWhile isDecimal)

/-- The argument of a conversion. -/
def scanConv : Conv → List Byte → Option (Word × List Byte)
  | .x, bs => scanHex bs
  | .p, bs => if bs.take 2 = [asc '0', asc 'x'] then scanHex (bs.drop 2) else none
  | .d, bs => scanDec bs
  | .s, _ | .c, _ => none

/-- The arguments in a text. -/
def scan : List Item → List Byte → Option (List Word)
  | [], bs => if bs = [] then some [] else none
  | .lit b :: items, bs => if bs.head? = some b.byte then scan items bs.tail else none
  | .conv _ k :: items, bs =>
      (scanConv k bs).bind fun r => (scan items r.2).map (r.1 :: ·)

/-- The arguments of a format whose first one is number `j`. -/
def argsOf (vl : Nat → Word) : List Item → Nat → List Word
  | [], _ => []
  | .lit _ :: items, j => argsOf vl items j
  | .conv _ _ :: items, j => vl j :: argsOf vl items (j + 1)

/-- The text that follows does not begin with a digit. -/
def EndsNumber : List Item → Prop
  | [] => True
  | .lit b :: _ => isDecimal b.byte = false
  | .conv _ _ :: _ => False

/-- The format has numbers only, and their ends can be seen. `%d` prints no
numeral for `-2 ^ 31`. -/
def Separable (vl : Nat → Word) : List Item → Nat → Prop
  | [], _ => True
  | .lit _ :: items, j => Separable vl items j
  | .conv _ .d :: items, j => vl j ≠ intMin ∧ EndsNumber items ∧ Separable vl items (j + 1)
  | .conv _ .x :: items, j | .conv _ .p :: items, j => Separable vl items (j + 1)
  | .conv _ .s :: _, _ | .conv _ .c :: _, _ => False

/-! ### Hexadecimal digits -/

/-- The four bits of digit `i`. -/
theorem toNat_nibble (num : Word) {i : Nat} (hi : i < 8) :
    (num.sshiftRight (4 * i) &&& 0xF#32).toNat = num.toNat / 16 ^ i % 16 := by
  have hsame : num.sshiftRight (4 * i) &&& 0xF#32 = num >>> (4 * i) &&& 0xF#32 := by
    apply BitVec.eq_of_getLsbD_eq
    intro j hj
    rw [BitVec.getLsbD_and, BitVec.getLsbD_and, BitVec.getLsbD_sshiftRight,
      BitVec.getLsbD_ushiftRight]
    by_cases hlow : j < 4
    · -- The sign does not get into the digit.
      have hin : 4 * i + j < 32 := by omega
      simp [hin, Nat.not_le.mpr hj]
    · have hout : (0xF#32 : Word).getLsbD j = false := by
        have hmask : (0xF#32 : Word).toNat < 2 ^ j :=
          Nat.lt_of_lt_of_le (by decide) (Nat.pow_le_pow_right (by decide) (by omega : 4 ≤ j))
        exact Nat.testBit_lt_two_pow hmask
      rw [hout, Bool.and_false, Bool.and_false]
  have hmask : (0xF#32 : Word).toNat = 2 ^ 4 - 1 := rfl
  rw [hsame, BitVec.toNat_and, hmask, Nat.and_two_pow_sub_one_eq_mod, BitVec.toNat_ushiftRight,
    Nat.shiftRight_eq_div_pow, Nat.pow_mul]

/-- A hexadecimal digit is read back. -/
theorem hexValue_hexDigit (num : Word) {i : Nat} (hi : i < 8) :
    hexValue (hexDigit num i) = some (num.toNat / 16 ^ i % 16) := by
  have hd := toNat_nibble num hi
  have hlt : num.toNat / 16 ^ i % 16 < 16 := Nat.mod_lt _ (by decide)
  rw [← hd] at hlt ⊢
  rw [hexDigit]
  generalize num.sshiftRight (4 * i) &&& 0xF#32 = d at hlt
  have h0 : asc '0' = 48#8 := rfl
  have h9 : asc '9' = 57#8 := rfl
  have ha : asc 'a' = 97#8 := rfl
  have hf : asc 'f' = 102#8 := rfl
  simp only [hexValue, isDecimal, h0, h9, ha, hf, Bool.and_eq_true, decide_eq_true_eq]
  by_cases hten : d < 10#32
  · rw [if_pos hten, if_pos (by constructor <;> bv_omega)]
    congr 1
    bv_omega
  · rw [if_neg hten, if_neg (by rw [not_and_or]; right; bv_omega),
      if_pos (by constructor <;> bv_omega)]
    congr 1
    bv_omega

/-- The digits of `case 'x'` read back. -/
theorem readHex_renderHex (num : Word) (k : Nat) (hk : k ≤ 8) (v : Nat) :
    readHex v (renderHex num k) = some (16 ^ k * v + num.toNat % 16 ^ k) := by
  induction k generalizing v with
  | zero =>
      rw [renderHex, Nat.pow_zero, Nat.mod_one]
      simp [readHex]
  | succ k ih =>
      have hrest := ih (by omega) (16 * v + num.toNat / 16 ^ k % 16)
      have hstep : readHex v (renderHex num (k + 1))
          = readHex (16 * v + num.toNat / 16 ^ k % 16) (renderHex num k) := by
        rw [renderHex, readHex, List.foldlM_cons, hexValue_hexDigit num (by omega)]
        rfl
      rw [hstep, hrest, Nat.mod_pow_succ]
      congr 1
      ring

/-- There are as many hexadecimal digits as asked for. -/
theorem length_renderHex (num : Word) (k : Nat) : (renderHex num k).length = k := by
  induction k with
  | zero => rfl
  | succ k ih => rw [renderHex, List.length_cons, ih]

/-- Eight hexadecimal digits are read back. -/
theorem scanHex_renderHex (num : Word) (rest : List Byte) :
    scanHex (renderHex num 8 ++ rest) = some (num, rest) := by
  have hlen := length_renderHex num 8
  have htake : (renderHex num 8 ++ rest).take 8 = renderHex num 8 := by
    rw [List.take_append_of_le_length (by omega), List.take_of_length_le (by omega)]
  have hdrop : (renderHex num 8 ++ rest).drop 8 = rest := by
    rw [List.drop_append_of_le_length (by omega), List.drop_of_length_le (by omega)]
    rfl
  have hmod : num.toNat % 16 ^ 8 = num.toNat := Nat.mod_eq_of_lt num.isLt
  rw [scanHex, if_neg (by rw [List.length_append]; omega), htake, hdrop,
    readHex_renderHex num 8 (Nat.le_refl 8), hmod]
  simp

/-! ### Decimal digits -/

/-- The text does not begin with a digit. -/
def NoDigit (bs : List Byte) : Prop := ∀ b, bs.head? = some b → isDecimal b = false

/-- The digits end where no further one follows. -/
theorem takeWhile_digits {ds rest : List Byte} (hds : ∀ d ∈ ds, isDecimal d = true)
    (hrest : NoDigit rest) :
    (ds ++ rest).takeWhile isDecimal = ds ∧ (ds ++ rest).dropWhile isDecimal = rest := by
  have htake : rest.takeWhile isDecimal = [] ∧ rest.dropWhile isDecimal = rest := by
    cases rest with
    | nil => exact ⟨rfl, rfl⟩
    | cons b rest =>
        have hb := hrest b rfl
        simp [hb]
  rw [List.takeWhile_append_of_pos hds, List.dropWhile_append_of_pos hds, htake.1, htake.2]
  simp

/-- The number that `%d` has printed reads back, and nothing of the rest. -/
theorem scanDec_renderDec {v : Word} (hv : v ≠ intMin) {rest : List Byte} (hrest : NoDigit rest) :
    scanDec (renderDec v ++ rest) = some (v, rest) := by
  obtain ⟨ds, hds, hne, hdigits, -, hread⟩ := renderDec_isNumeral hv
  have hdecimal : ∀ d ∈ ds, isDecimal d = true := by
    intro d hd
    have hbounds := hdigits d hd
    simp [isDecimal, hbounds.1, hbounds.2]
  obtain ⟨htake, hdrop⟩ := takeWhile_digits hdecimal hrest
  by_cases hneg : v.toInt < 0
  · rw [if_pos hneg] at hds hread
    have hhead : (renderDec v ++ rest).head? = some (asc '-') := by rw [hds]; rfl
    have htail : (renderDec v ++ rest).tail = ds ++ rest := by rw [hds]; rfl
    simp only [scanDec, hhead, if_true, htail, htake, hdrop, if_neg hne, hread, BitVec.ofInt_toInt]
  · rw [if_neg hneg] at hds hread
    have hhead : (renderDec v ++ rest).head? ≠ some (asc '-') := by
      -- A sign is no digit.
      obtain ⟨d, ds', rfl⟩ := List.exists_cons_of_ne_nil hne
      have hd := hdecimal d List.mem_cons_self
      rw [hds]
      intro hsign
      obtain rfl : d = asc '-' := Option.some.inj hsign
      exact absurd hd (by decide)
    rw [hds] at hhead ⊢
    simp only [scanDec, if_neg hhead, htake, hdrop, if_neg hne, hread, BitVec.ofInt_toInt]

/-! ### The whole text -/

section Scan

variable (vl : Nat → Word) (m : Mem)

/-- The rendering begins with a digit only where the format says so. -/
theorem noDigit_render {items : List Item} (h : EndsNumber items) (j : Nat) :
    NoDigit (render vl m items j) := by
  intro b hb
  cases items with
  | nil => cases hb
  | cons item items =>
      cases item with
      | lit c =>
          obtain rfl : c.byte = b := Option.some.inj hb
          exact h
      | conv l k => exact h.elim

/-- The arguments read back from the rendering. Induction on the format. -/
theorem scan_render (items : List Item) :
    ∀ j, Separable vl items j → scan items (render vl m items j) = some (argsOf vl items j) := by
  induction items with
  | nil => exact fun _ _ => rfl
  | cons item items ih =>
      intro j hsep
      cases item with
      | lit b =>
          have hhead : (b.byte :: render vl m items j).head? = some b.byte := rfl
          rw [render, scan, if_pos hhead]
          exact ih j hsep
      | conv l k =>
          -- It is enough to read one argument back, with the rest of the text
          -- behind it.
          have hconv : ∀ hrest : Separable vl items (j + 1),
              scanConv k (renderConv m (vl j) k ++ render vl m items (j + 1))
                = some (vl j, render vl m items (j + 1)) →
              scan (.conv l k :: items) (render vl m (.conv l k :: items) j)
                = some (argsOf vl (.conv l k :: items) j) := by
            intro hrest hscan
            rw [render, scan, hscan, Option.bind_some, ih (j + 1) hrest]
            rfl
          cases k with
          | d =>
              obtain ⟨hmin, hends, hrest⟩ := hsep
              exact hconv hrest (scanDec_renderDec hmin (noDigit_render vl m hends (j + 1)))
          | x => exact hconv hsep (scanHex_renderHex (vl j) _)
          | p =>
              refine hconv hsep ?_
              have htwo : (renderConv m (vl j) .p ++ render vl m items (j + 1)).take 2
                  = [asc '0', asc 'x'] := rfl
              rw [scanConv, if_pos htwo]
              exact scanHex_renderHex (vl j) _
          | s | c => exact hsep.elim

/-- There is no `%c` among the numbers. -/
theorem noChar_of_separable (items : List Item) :
    ∀ j, Separable vl items j → ∀ l, Item.conv l .c ∉ items := by
  induction items with
  | nil => simp
  | cons item items ih =>
      intro j hsep l hmem
      rcases List.mem_cons.mp hmem with rfl | hin
      · exact hsep
      · cases item with
        | lit b => exact ih j hsep l hin
        | conv l' k =>
            cases k with
            | d => exact ih (j + 1) hsep.2.2 l hin
            | x | p => exact ih (j + 1) hsep l hin
            | s | c => exact hsep.elim

/-- Numbers need no string. -/
theorem matches_of_separable (items : List Item) :
    ∀ j, Separable vl items j → Matches vl m items j := by
  induction items with
  | nil => exact fun _ _ => trivial
  | cons item items ih =>
      intro j hsep
      cases item with
      | lit b => exact ih j hsep
      | conv l k =>
          cases k with
          | d => exact ⟨fun h => Conv.noConfusion h, ih (j + 1) hsep.2.2⟩
          | x | p => exact ⟨fun h => Conv.noConfusion h, ih (j + 1) hsep⟩
          | s | c => exact hsep.elim

end Scan

/-- For every format of numbers whose ends can be seen, and all arguments
but `-2 ^ 31` for a `%d`: `lib_vprintf` sends a text from which the format
reads the arguments back, as long as the text is shorter than `out_buf`. So
two calls with one format send the same text only for the same numbers. -/
theorem printf_roundtrip (vl : Nat → Word) (m : Mem) (items : List Item) (outBuf : Nat → Byte)
    (hsep : Separable vl items 0) (hlen : (render vl m items 0).length + 1 < outBufSize) :
    ∃ text res, libVprintf vl m outBuf (formatText items) = some ⟨text, some res⟩ ∧
      scan items text = some (argsOf vl items 0) := by
  have hprint := PrintfCall.libVprintf_eq ⟨vl, m, items, matches_of_separable vl m items 0 hsep⟩
    (noChar_of_separable vl items 0 hsep) hlen outBuf
  exact ⟨_, _, hprint, scan_render vl m items 0 hsep⟩

/-- `"%d:%x"`. -/
def numberPair : List Item :=
  [.conv false .d, .lit ⟨asc ':', by decide, by decide⟩, .conv false .x]

/-- The main result for `lib_printf("%d:%x", -7, -7)`. -/
theorem numberPair_roundtrip :
    ∃ text res, libVprintf (fun _ => -7#32) (fun _ => 0#8) (fun _ => 0#8) (formatText numberPair)
        = some ⟨text, some res⟩ ∧
      scan numberPair text = some [-7#32, -7#32] :=
  printf_roundtrip (fun _ => -7#32) (fun _ => 0#8) numberPair (fun _ => 0#8)
    ⟨by decide, rfl, trivial⟩ (by decide)

end MiniRiscvOs.Proofs
